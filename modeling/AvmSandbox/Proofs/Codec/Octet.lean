import AvmSandbox.Codec.Row
import Mathlib.Data.List.Forall2
import Mathlib.Tactic.IntervalCases

/-! # Octets — bytes of which some bits carry nothing

    A byte that holds fewer than eight booleans has bits to spare.  The writer
    clears them and the reader does not look at them, so one layout stands for
    many buffers.

    * `bitAt` counts the bits of a byte from the top;
    * `Octet` is a byte together with its spare bits, and `Octet.Admits` says
      which bytes a reader takes for it;
    * `runOctets` lays out a run of booleans, and `runOctets_cons` peels its
      first byte off. -/

namespace AvmSandbox

/-! ## Bits -/

/-- The bit at a place of a byte, the highest at place 0. -/
def bitAt (byte : UInt8) (i : Nat) : Bool := byte.toBitVec.getMsbD i

/-- The byte with the given bits. -/
def byteOf (bit : Nat → Bool) : UInt8 :=
  ⟨BitVec.ofBoolListBE [bit 0, bit 1, bit 2, bit 3, bit 4, bit 5, bit 6, bit 7]⟩

/-- Bytes with the same bits are the same. -/
theorem eq_of_bitAt_eq {a b : UInt8} (h : ∀ i < 8, bitAt a i = bitAt b i) : a = b := by
  refine UInt8.toBitVec_inj.mp (BitVec.eq_of_getMsbD_eq ?_)
  intro i hi
  exact h i hi

@[simp] theorem bitAt_zero (i : Nat) : bitAt 0 i = false := BitVec.getMsbD_zero

@[simp] theorem bitAt_and (a b : UInt8) (i : Nat) :
    bitAt (a &&& b) i = (bitAt a i && bitAt b i) := BitVec.getMsbD_and

@[simp] theorem bitAt_or (a b : UInt8) (i : Nat) :
    bitAt (a ||| b) i = (bitAt a i || bitAt b i) := BitVec.getMsbD_or

/-- Inverting a byte inverts its bits. -/
theorem bitAt_not (a : UInt8) {i : Nat} (h : i < 8) : bitAt (~~~a) i = !bitAt a i := by
  show (~~~a.toBitVec).getMsbD i = !a.toBitVec.getMsbD i
  rw [BitVec.getMsbD_not]
  simp [h]

/-- A shift to the left brings up the next bit. -/
theorem bitAt_shiftLeft (a : UInt8) (i : Nat) : bitAt (a <<< 1) i = bitAt a (i + 1) := by
  show (a.toBitVec <<< 1).getMsbD i = a.toBitVec.getMsbD (i + 1)
  rw [BitVec.getMsbD_shiftLeft, Nat.add_comm]

/-- A shift to the right moves a bit on. -/
theorem bitAt_shiftRight (a : UInt8) {i : Nat} (h : i + 1 < 8) :
    bitAt (a >>> 1) (i + 1) = bitAt a i := by
  show (a.toBitVec >>> 1).getMsbD (i + 1) = a.toBitVec.getMsbD i
  rw [BitVec.getMsbD_ushiftRight]
  simp [h]

/-- And a zero comes in front. -/
theorem bitAt_shiftRight_zero (a : UInt8) : bitAt (a >>> 1) 0 = false := by
  show (a.toBitVec >>> 1).getMsbD 0 = false
  rw [BitVec.getMsbD_ushiftRight]
  simp

/-- The byte of a single boolean has it on top and nothing else. -/
theorem bitAt_flag (b : Bool) {i : Nat} (h : i < 8) :
    bitAt (if b then (0x80 : UInt8) else 0) i = (decide (i = 0) && b) := by
  cases b with
  | false => simp
  | true => interval_cases i <;> rfl

/-- The bit that is read from a byte is its first. -/
theorem topBit_eq (a : UInt8) : topBit a = bitAt a 0 := by
  -- the mask keeps the top bit and clears the others
  have hflag : ∀ i < 8, bitAt (a &&& 0x80) i = (bitAt a i && decide (i = 0)) := by
    intro i hi
    have h := bitAt_flag true hi
    rw [if_pos rfl, Bool.and_true] at h
    rw [bitAt_and, h]
  cases htop : bitAt a 0 with
  | false =>
      have hzero : a &&& 0x80 = 0 := by
        refine eq_of_bitAt_eq ?_
        intro i hi
        rw [hflag i hi, bitAt_zero]
        cases i with
        | zero => rw [htop]; rfl
        | succ i => simp
      rw [topBit, hzero]
      rfl
  | true =>
      have hone : a &&& 0x80 ≠ 0 := by
        intro hzero
        have h := hflag 0 (by omega)
        rw [hzero, htop] at h
        simp at h
      simpa [topBit] using hone

/-- A byte that is made from bits has these. -/
theorem bitAt_byteOf (bit : Nat → Bool) {i : Nat} (h : i < 8) : bitAt (byteOf bit) i = bit i := by
  show (BitVec.ofBoolListBE
    [bit 0, bit 1, bit 2, bit 3, bit 4, bit 5, bit 6, bit 7]).getMsbD i = bit i
  rw [BitVec.getMsbD_ofBoolListBE]
  interval_cases i <;> rfl

/-- Packing puts the booleans at the first places and clears the others. -/
theorem bitAt_packBits (bits : List Bool) {i : Nat} (hi : i < 8) :
    bitAt (packBits bits) i = bits.getD i false := by
  induction bits generalizing i with
  | nil => simp [packBits]
  | cons b bits ih =>
      rw [packBits, bitAt_or, bitAt_flag b hi]
      cases i with
      | zero => simp [bitAt_shiftRight_zero]
      | succ i =>
          rw [bitAt_shiftRight _ hi, ih (by omega)]
          simp

/-! ## Octets -/

/-- A byte of a layout. -/
structure Octet where
  /-- The byte as it is written. -/
  byte : UInt8
  /-- The bits that carry nothing. -/
  padding : UInt8
  /-- Bits that carry nothing are written as zero. -/
  clear : byte &&& padding = 0

namespace Octet

/-- A byte all of whose bits count. -/
def solid (byte : UInt8) : Octet := ⟨byte, 0, by simp⟩

/-- The bytes a reader takes for the octet: those that agree with it outside the padding. -/
def Admits (o : Octet) (byte : UInt8) : Prop := byte &&& ~~~o.padding = o.byte

instance (o : Octet) (byte : UInt8) : Decidable (o.Admits byte) :=
  inferInstanceAs (Decidable (_ = _))

/-- Bits of padding are written as zeros. -/
theorem bitAt_byte_of_padding (o : Octet) {i : Nat} (h : bitAt o.padding i = true) :
    bitAt o.byte i = false := by
  have hclear : bitAt (o.byte &&& o.padding) i = false := by rw [o.clear, bitAt_zero]
  rw [bitAt_and, h, Bool.and_true] at hclear
  exact hclear

/-- Agreement outside the padding, bit by bit. -/
theorem admits_iff {o : Octet} {byte : UInt8} :
    o.Admits byte ↔ ∀ i < 8, bitAt o.padding i = false → bitAt byte i = bitAt o.byte i := by
  constructor
  · intro h i hi hp
    rw [← h, bitAt_and, bitAt_not _ hi, hp]
    simp
  · intro h
    refine eq_of_bitAt_eq ?_
    intro i hi
    rw [bitAt_and, bitAt_not _ hi]
    cases hp : bitAt o.padding i with
    | false => rw [h i hi hp]; simp
    | true => rw [o.bitAt_byte_of_padding hp]; simp

/-- The octet as it is written is admitted. -/
theorem admits_byte (o : Octet) : o.Admits o.byte :=
  admits_iff.mpr fun _ _ _ => rfl

/-- An octet without padding admits one byte only. -/
@[simp] theorem admits_solid {a b : UInt8} : (solid a).Admits b ↔ b = a := by
  simp [Admits, solid]

end Octet

/-! ## Layouts -/

/-- Bytes all of whose bits count. -/
def solids (bytes : Bytes) : List Octet := bytes.map Octet.solid

/-- The bytes of a layout as they are written. -/
def written (octets : List Octet) : Bytes := octets.map Octet.byte

/-- The buffers a reader takes for a layout. -/
def Admitted (octets : List Octet) (bytes : Bytes) : Prop :=
  List.Forall₂ Octet.Admits octets bytes

@[simp] theorem length_solids (bytes : Bytes) : (solids bytes).length = bytes.length :=
  List.length_map _

/-- An octet is written as one byte. -/
@[simp] theorem length_written (octets : List Octet) : (written octets).length = octets.length :=
  List.length_map _

/-- Octets without padding are written as the bytes that they are made from. -/
@[simp] theorem written_solids (bytes : Bytes) : written (solids bytes) = bytes := by
  induction bytes with
  | nil => rfl
  | cons b bytes ih => exact congrArg (b :: ·) ih

/-- Octets are written one after the other. -/
@[simp] theorem written_append (xs ys : List Octet) :
    written (xs ++ ys) = written xs ++ written ys := List.map_append

/-- A layout admits what is written for it. -/
theorem admitted_written (octets : List Octet) : Admitted octets (written octets) := by
  induction octets with
  | nil => exact .nil
  | cons o octets ih => exact .cons o.admits_byte ih

/-- What is admitted is as long as what is laid out. -/
theorem Admitted.length_eq {octets : List Octet} {bytes : Bytes} (h : Admitted octets bytes) :
    bytes.length = octets.length := (List.Forall₂.length_eq h).symm

/-- Layouts one after the other admit bytes one after the other. -/
theorem Admitted.append {xs ys : List Octet} {as bs : Bytes} (hx : Admitted xs as)
    (hy : Admitted ys bs) : Admitted (xs ++ ys) (as ++ bs) := by
  induction hx with
  | nil => exact hy
  | cons h _ ih => exact .cons h ih

/-- Where every bit counts, only the bytes themselves are admitted. -/
@[simp] theorem admitted_solids {as bs : Bytes} : Admitted (solids as) bs ↔ bs = as := by
  constructor
  · intro h
    induction as generalizing bs with
    | nil => cases h; rfl
    | cons a as ih =>
        cases h with
        | cons hb h => rw [Octet.admits_solid.mp hb, ih h]
  · rintro rfl
    have h := admitted_written (solids bs)
    rwa [written_solids] at h

/-! ## Runs of booleans -/

/-- The octet at a place of a run of booleans: the boolean at place `k` of the run is bit
    `k % 8` from the top of octet `k / 8`. -/
def runOctet (bits : List Bool) (j : Nat) : Octet where
  byte := byteOf fun i => bits.getD (8 * j + i) false
  padding := byteOf fun i => decide (bits.length ≤ 8 * j + i)
  clear := by
    refine eq_of_bitAt_eq ?_
    intro i hi
    rw [bitAt_and, bitAt_byteOf _ hi, bitAt_byteOf _ hi, bitAt_zero]
    -- a place is either taken by a boolean or spare
    by_cases h : bits.length ≤ 8 * j + i
    · simp [List.getElem?_eq_none h]
    · simp [h]

/-- The octets of a run of booleans. -/
def runOctets (bits : List Bool) : List Octet :=
  (List.range ((bits.length + 7) / 8)).map (runOctet bits)

/-- A run of booleans takes up a byte for every eight of them or fewer. -/
@[simp] theorem length_runOctets (bits : List Bool) :
    (runOctets bits).length = (bits.length + 7) / 8 := by
  simp [runOctets]

@[simp] theorem runOctets_nil : runOctets [] = [] := rfl

private theorem runOctet_succ (bits : List Bool) (j : Nat) :
    runOctet bits (j + 1) = runOctet (bits.drop 8) j := by
  have hplace : ∀ i, 8 * (j + 1) + i = 8 + (8 * j + i) := by intro i; omega
  have hpad : ∀ i, bits.length ≤ 8 + (8 * j + i) ↔ bits.length - 8 ≤ 8 * j + i := by
    intro i; omega
  simp only [runOctet, hplace, hpad, List.getD_eq_getElem?_getD, List.getElem?_drop,
    List.length_drop]

/-- A run begins with the octet of its first eight booleans. -/
theorem runOctets_cons (b : Bool) (bits : List Bool) :
    runOctets (b :: bits) = runOctet (b :: bits) 0 :: runOctets ((b :: bits).drop 8) := by
  have hlen : ((b :: bits).length + 7) / 8 = (((b :: bits).drop 8).length + 7) / 8 + 1 := by
    simp only [List.length_drop, List.length_cons]
    omega
  rw [runOctets, hlen, List.range_succ_eq_map, List.map_cons, List.map_map]
  refine congrArg (_ :: ·) ?_
  refine List.map_congr_left ?_
  intro j _
  exact runOctet_succ (b :: bits) j

/-- What is written for the first eight booleans is their packed byte. -/
theorem runOctet_byte (bits : List Bool) : (runOctet bits 0).byte = packBits (bits.take 8) := by
  refine eq_of_bitAt_eq ?_
  intro i hi
  rw [bitAt_packBits _ hi]
  show bitAt (byteOf fun i => bits.getD (8 * 0 + i) false) i = _
  rw [bitAt_byteOf _ hi]
  simp [hi]

/-- Whether a byte begins with some booleans. -/
def Shows (bits : List Bool) (byte : UInt8) : Prop :=
  ∀ i b, bits[i]? = some b → bitAt byte i = b

theorem shows_nil (byte : UInt8) : Shows [] byte := by
  intro i b hb
  cases hb

/-- A boolean is read off the top, and the next one moves up. -/
theorem shows_cons {b : Bool} {bits : List Bool} {byte : UInt8} :
    Shows (b :: bits) byte ↔ topBit byte = b ∧ Shows bits (byte <<< 1) := by
  rw [topBit_eq]
  constructor
  · intro h
    refine ⟨h 0 b rfl, ?_⟩
    intro i b' hb'
    rw [bitAt_shiftLeft]
    exact h (i + 1) b' hb'
  · rintro ⟨htop, h⟩ i b' hb'
    cases i with
    | zero =>
        rw [htop]
        exact Option.some.inj hb'
    | succ i =>
        rw [← bitAt_shiftLeft]
        exact h i b' hb'

/-- The first octet of a run admits the bytes that begin with its booleans. -/
theorem runOctet_admits_iff {bits : List Bool} {byte : UInt8} :
    (runOctet bits 0).Admits byte ↔ Shows (bits.take 8) byte := by
  -- the padding begins where the booleans end, if that is within the first eight
  have hpad : ∀ i < 8, bitAt (runOctet bits 0).padding i = decide (bits.length ≤ i) := by
    intro i hi
    show bitAt (byteOf fun i => decide (bits.length ≤ 8 * 0 + i)) i = _
    rw [bitAt_byteOf _ hi]
    simp
  have hbyte : ∀ i < 8, bitAt (runOctet bits 0).byte i = bits.getD i false := by
    intro i hi
    show bitAt (byteOf fun i => bits.getD (8 * 0 + i) false) i = _
    rw [bitAt_byteOf _ hi]
    simp
  rw [Octet.admits_iff]
  constructor
  · intro h i b hb
    have hlt : i < min 8 bits.length := by
      rw [← List.length_take]
      exact (List.getElem?_eq_some_iff.mp hb).1
    have hi : i < 8 := by omega
    rw [List.getElem?_take, if_pos hi] at hb
    rw [h i hi (by rw [hpad i hi]; simp; omega), hbyte i hi]
    simp [hb]
  · intro h i hi hp
    rw [hpad i hi] at hp
    have hlt : i < bits.length := by simpa using hp
    rw [hbyte i hi, h i bits[i] (by rw [List.getElem?_take, if_pos hi, List.getElem?_eq_getElem hlt])]
    simp [List.getElem?_eq_getElem hlt]

end AvmSandbox
