/-! # Byte strings — big-endian numbers, hexadecimal text, UTF-8

    A byte string is a list of bytes.  This file holds the three readings the
    rest of the library needs:

    * `Bytes.ofNat` and `Bytes.toNat`: a number as a fixed count of base-256
      digits, most significant first;
    * `Bytes.hex` and `Bytes.parseHex`: two hexadecimal digits per byte;
    * `Bytes.ofText` and `Bytes.text?`: a text and its UTF-8 form. -/

namespace AvmSandbox

/-- A byte string. -/
abbrev Bytes := List UInt8

/-- A byte string of exactly 32 bytes: a key, a hash or an identifier. -/
abbrev Bytes32 := { bytes : Bytes // bytes.length = 32 }

/-- What can be wrong with hexadecimal text. -/
inductive HexError where
  /-- Half a byte is left over. -/
  | oddLength
  /-- A byte of the text is no hexadecimal digit. -/
  | digit (byte : UInt8) (position : Nat)
  deriving DecidableEq, Repr

namespace Bytes

/-! ## Numbers -/

/-- The last `width` base-256 digits of `n`, most significant first. -/
def ofNat : Nat → Nat → Bytes
  | 0, _ => []
  | width + 1, n => ofNat width (n / 256) ++ [UInt8.ofNat n]

/-- The number whose base-256 digits are the given bytes. -/
def toNat (bytes : Bytes) : Nat :=
  bytes.foldl (fun n b => n * 256 + b.toNat) 0

@[simp] theorem length_ofNat (width n : Nat) : (ofNat width n).length = width := by
  induction width generalizing n with
  | zero => rfl
  | succ w ih => simp [ofNat, ih]

theorem toNat_append_singleton (bytes : Bytes) (b : UInt8) :
    toNat (bytes ++ [b]) = toNat bytes * 256 + b.toNat := by
  simp [toNat, List.foldl_append]

/-- Eight digits of a 64-bit number. -/
def ofUInt64 (n : UInt64) : Bytes := ofNat 8 n.toNat

/-! ## Hexadecimal text -/

/-- The digit of a number below sixteen, in lower case. -/
def hexDigit (n : UInt8) : Char :=
  if n < 10 then Char.ofNat (48 + n.toNat) else Char.ofNat (87 + n.toNat)

/-- Two lower-case digits per byte. -/
def hex (bytes : Bytes) : String :=
  String.ofList (bytes.flatMap fun b => [hexDigit (b / 16), hexDigit (b % 16)])

/-- The value of a hexadecimal digit given by its character code, in either case. -/
def hexValue? (c : UInt8) : Option UInt8 :=
  if 48 ≤ c ∧ c ≤ 57 then some (c - 48)
  else if 97 ≤ c ∧ c ≤ 102 then some (c - 87)
  else if 65 ≤ c ∧ c ≤ 70 then some (c - 55)
  else none

/-- Reads digits pairwise; `position` is that of the next one and `done` holds the bytes
    read so far, last first. -/
def parseHexFrom (position : Nat) (done : Bytes) : Bytes → Except HexError Bytes
  | [] => .ok done.reverse
  | [_] => .error .oddLength
  | hi :: lo :: rest =>
      match hexValue? hi with
      | none => .error (.digit hi position)
      | some h =>
          match hexValue? lo with
          | none => .error (.digit lo (position + 1))
          | some l => parseHexFrom (position + 2) ((h * 16 + l) :: done) rest

/-- Reads hexadecimal text, given by its character codes.  An odd length is reported
    before any wrong digit. -/
def parseHex (codes : Bytes) : Except HexError Bytes :=
  if codes.length % 2 = 1 then .error .oddLength else parseHexFrom 0 [] codes

/-! ## Text -/

/-- The UTF-8 form of a text. -/
def ofText (s : String) : Bytes := s.toUTF8.data.toList

/-- The text whose UTF-8 form the bytes are, if there is one. -/
def text? (bytes : Bytes) : Option String :=
  String.fromUTF8? ⟨bytes.toArray⟩

/-- Every text reads back from its UTF-8 form. -/
theorem text?_ofText (s : String) : text? (ofText s) = some s := by
  simp only [text?, ofText, String.fromUTF8?, String.toUTF8, Array.toArray_toList]
  exact dif_pos s.isValidUTF8

/-- Only the UTF-8 form of a text reads back as that text. -/
theorem ofText_of_text? {bytes : Bytes} {s : String} (h : text? bytes = some s) :
    ofText s = bytes := by
  simp only [text?, String.fromUTF8?] at h
  split at h
  · simp only [Option.some.injEq] at h
    subst h
    rfl
  · simp at h

/-- Reads a hexadecimal text. -/
def ofHex? (s : String) : Option Bytes :=
  (parseHex (ofText s)).toOption

end Bytes

namespace Bytes32

/-- Thirty-two zero bytes. -/
def zero : Bytes32 := ⟨List.replicate 32 0, rfl⟩

instance : Inhabited Bytes32 := ⟨zero⟩

/-- The bytes as a 32-byte string, if there are that many. -/
def ofBytes? (bytes : Bytes) : Option Bytes32 :=
  if h : bytes.length = 32 then some ⟨bytes, h⟩ else none

end Bytes32

end AvmSandbox
