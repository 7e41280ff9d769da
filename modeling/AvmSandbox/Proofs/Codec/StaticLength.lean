import AvmSandbox.Proofs.Codec.Built

/-! # Static lengths — static types have one length everywhere

    The length of a type is worked out from its components, with booleans eight
    to a byte; the encoder packs the booleans that follow each other, and the
    decoder counts how many bits of a byte are still to be read.  All of them
    come to the same number, in either layout of references: a static type is
    written in as many bytes as its length says, and any bytes in that number
    are an encoding of it.

    An array can be static and still have no length, when its bytes cannot be
    counted in 64 bits.  Nothing can be encoded as such a type or decoded from
    it, since no buffer is that long.

    * `Overlong`, `Addressable`: the conditions on types;
    * `fixedLength?_eq_none_iff`: which types have no length;
    * `length?_of_yields`: what is written of a static type;
    * `exists_decode_of_length`: what is read as one, by way of its row;
    * `one_length_of_addressable`: all of it. -/

namespace AvmSandbox

namespace Descriptor

open Encoding

variable {t : Descriptor} {bytes : Bytes} {n : Nat}

/-! ## Types and their lengths -/

/-- Whether a static array has more bytes than 64 bits can count. -/
def Overlong : Descriptor → Prop
  | staticArray t count => ∃ size, t.fixedLength? = some size ∧ Limits.length ≤ size * count
  | _ => False

/-- Whether the length of a type, if it has one, is a 64-bit number. -/
def LengthCounted (t : Descriptor) : Prop := ∀ n, t.fixedLength? = some n → n < Limits.length

/-- A type that can be laid out, all of whose lengths are 64-bit numbers. -/
def Addressable : Descriptor → Prop := Throughout fun t => t.WellFormedHere ∧ t.LengthCounted

theorem Addressable.wellFormed (h : t.Addressable) : t.WellFormed := h.mono fun _ h => h.1

theorem addressable_leaf (ht : t.inner = []) (hwidth : t.WidthPermitted)
    (hn : ∀ n ∈ t.fixedLength?, n < Limits.length) : t.Addressable :=
  .of_leaf ht ⟨(wellFormed_leaf ht hwidth).here, hn⟩

/-- A bounded array that is too long has no length: its elements are not booleans. -/
theorem fixedLength?_of_overlong (hbounded : t.ArrayBounded) (h : t.Overlong) :
    t.fixedLength? = none := by
  cases t with
  | staticArray element count =>
      obtain ⟨size, hsize, hle⟩ := h
      have hcount : count ≤ 8 * Limits.box := hbounded
      have hnotBool : element.isBool = false := by
        cases hb : element.isBool with
        | false => rfl
        | true =>
            rw [eq_bool_of_isBool hb, fixedLength?, length?] at hsize
            cases hsize
            have hbox : 8 * Limits.box < Limits.length := by decide
            omega
      have hsize : element.length? false = some size := hsize
      rw [fixedLength?, length?, if_neg (by simp [hnotBool]), hsize, Option.bind_some,
        if_neg (Nat.not_lt.mpr hle)]
  | _ => exact h.elim

/-- **A TYPE HAS NO LENGTH** when it is dynamic, or an array that is too long. -/
theorem fixedLength?_eq_none_iff (hwf : t.WellFormed) :
    t.fixedLength? = none ↔ t.isDynamic = true ∨ t.Overlong := by
  constructor
  · intro hnone
    cases hd : t.isDynamic with
    | true => exact .inl rfl
    | false =>
        obtain ⟨n, hn⟩ | ⟨element, count, size, rfl, -, -, hsize, hle⟩ :=
          length_or_array_of_static hwf hd
        · rw [hnone] at hn
          cases hn
        · exact .inr ⟨size, hsize, hle⟩
  · rintro (hd | hlong)
    · exact length?_of_isDynamic false hd
    · exact fixedLength?_of_overlong hwf.here.bounded hlong

/-! ## Writing -/

/-- A type with a length by value has one in either layout. -/
theorem exists_length? (hn : t.fixedLength? = some n) (indexed : Bool) :
    ∃ m, t.length? indexed = some m := by
  cases indexed with
  | false => exact ⟨n, hn⟩
  | true =>
      obtain ⟨m, -, hm⟩ := length?_le hn
      exact ⟨m, hm⟩

/-- **A STATIC TYPE IS WRITTEN IN ITS LENGTH**, in either layout of references. -/
theorem length?_of_yields {v : Value} {before after : Layout} (hwf : t.WellFormed)
    (hstatic : t.isDynamic = false) (h : Yields (t.encodeIn v) before bytes after)
    (hlt : bytes.length < Limits.length) : t.length? before.isSome = some bytes.length := by
  obtain ⟨n, hn⟩ | ⟨element, count, size, rfl, hb, -, hsize, -⟩ :=
    length_or_array_of_static hwf hstatic
  · obtain ⟨m, hm⟩ := exists_length? hn before.isSome
    rw [hm, length_encodeIn h hm]
  · -- the array has no length by value, but by index it may have one
    obtain ⟨m, hm⟩ := exists_length? hsize before.isSome
    obtain ⟨items, parts, body, front, hitems, hparts, hbody, hfront, rfl⟩ :=
      (yields_encodeIn_sequence rfl).mp h
    cases hfront
    have hcount : items.length = count := takesCount_of_rowItems hitems
    have hrow : rowLength 0 (widths before.isSome ((staticArray element count).rowTypes items.length))
        = some (m * count) := by
      rw [rowTypes, hcount, widths_replicate, hm, widthOf_some hb, rowLength_replicate_bytes]
    have hlength : body.length = m * count :=
      hparts.length_eq (fun c _ _ _ _ _ _ hbytes hc => length_encodeIn hbytes hc) hbody hrow
    rw [List.nil_append] at hlt ⊢
    rw [hlength] at hlt ⊢
    rw [length?, if_neg (by simp [hb]), hm, Option.bind_some, if_pos hlt]

/-! ## Reading rows -/

section Rows

variable {refuse : Malformation → Fault} {pos : Nat} {rest : Bytes} {unread : Unread}
  {cells : List Cell} {slots : List Slot} {ws : List Width} {done vs : List Value}

/-- Values that are known when the tails are read. -/
theorem readTails_known :
    readTails refuse pos rest done (vs.map .known) = .ok (done.reverse ++ vs) := by
  induction vs generalizing done with
  | nil => rw [List.map_nil, readTails, List.append_nil]
  | cons v vs ih =>
      rw [List.map_cons, readTails, ih, List.reverse_cons, List.append_assoc, List.singleton_append]

theorem nextStart?_known : nextStart? (vs.map .known) = none := by
  induction vs with
  | nil => rfl
  | cons v vs ih => exact ih

/-- Whether the bytes ahead are as many as a row takes, when the bits still to be read of a byte
    and the `run` bits of it behind make up the byte. -/
def Remains (ws : List Width) (unread : Unread) (bytes : Bytes) : Prop :=
  ∃ run < 8, unread.count = (8 - run) % 8 ∧ rowLength run ws = some bytes.length

/-- Whether reading goes on behind one more value of a row, of which enough remains. -/
def GoesOn (ws : List Width) (refuse : Malformation → Fault) (pos : Nat) (bytes : Bytes)
    (cells : List Cell) (slots : List Slot) (out : Result (Nat × Bytes × List Cell)) : Prop :=
  ∃ v pos' bytes' unread', Remains ws unread' bytes' ∧ pos' + bytes'.length = pos + bytes.length ∧
    out = readHeads refuse pos' bytes' unread' (.known v :: cells) slots

theorem goesOn_bit (h : Remains (.bit :: ws) unread bytes) :
    GoesOn ws refuse pos bytes cells slots
      (readHeads refuse pos bytes unread cells (.bit :: slots)) := by
  obtain ⟨run, hrun, hcount, hn⟩ := h
  rw [rowLength] at hn
  obtain ⟨m, hm, hn⟩ := Option.map_eq_some_iff.mp hn
  have hnext : (run + 1) % 8 < 8 := Nat.mod_lt _ (by omega)
  obtain ⟨count, byte⟩ := unread
  dsimp only at hcount
  cases count with
  | succ left =>
      -- a byte has been begun, and the bit is in it
      rw [if_neg (by omega), Nat.zero_add] at hn
      subst hn
      exact ⟨.bool (topBit byte), pos, bytes, ⟨left, byte <<< 1⟩,
        ⟨_, hnext, by dsimp only; omega, hm⟩, rfl, rfl⟩
  | zero =>
      obtain rfl : run = 0 := by omega
      rw [if_pos rfl] at hn
      cases bytes with
      | nil =>
          rw [List.length_nil] at hn
          omega
      | cons first bytes =>
          rw [List.length_cons] at hn
          obtain rfl : m = bytes.length := by omega
          refine ⟨.bool (topBit first), pos + 1, bytes, ⟨7, first <<< 1⟩, ⟨_, hnext, rfl, hm⟩, ?_, rfl⟩
          rw [List.length_cons, Nat.add_assoc, Nat.add_comm 1]

theorem goesOn_fixed {length : Nat} {read : Bytes → Result Value}
    (hread : ∀ raw : Bytes, raw.length = length → ∃ w, read raw = .ok w)
    (h : Remains (.bytes length :: ws) unread bytes) :
    GoesOn ws refuse pos bytes cells slots
      (readHeads refuse pos bytes unread cells (.fixed length read :: slots)) := by
  obtain ⟨run, -, -, hn⟩ := h
  rw [rowLength] at hn
  obtain ⟨m, hm, hn⟩ := Option.map_eq_some_iff.mp hn
  have hraw : (bytes.take length).length = length := by
    rw [List.length_take]
    omega
  have hrest : (bytes.drop length).length = m := by
    rw [List.length_drop]
    omega
  obtain ⟨w, hw⟩ := hread _ hraw
  refine ⟨w, pos + length, bytes.drop length, ⟨0, 0⟩, ⟨0, by omega, rfl, by rw [hrest]; exact hm⟩, ?_, ?_⟩
  · rw [hrest, ← hn, Nat.add_assoc]
  · rw [readHeads]
    simp only [hraw, Nat.lt_irrefl, if_false, hw]

/-- Any bytes in the number that a row adds up to are read through by its heads. -/
theorem exists_readHeads {ts : List Descriptor}
    (hread : ∀ t ∈ ts, ∀ {n}, t.fixedLength? = some n → ∀ raw : Bytes, raw.length = n →
      ∃ w, t.decode raw = .ok w)
    (h : Remains (widths false ts) unread bytes) :
    ∃ vs : List Value, readHeads refuse pos bytes unread cells (rowSlots none ts)
      = .ok (pos + bytes.length, [], cells.reverse ++ vs.map .known) := by
  induction ts generalizing bytes pos unread cells with
  | nil =>
      obtain ⟨run, -, -, hn⟩ := h
      rw [widths, rowLength] at hn
      obtain rfl : bytes = [] := List.length_eq_zero_iff.mp (Option.some.inj hn).symm
      exact ⟨[], by rw [rowSlots, readHeads, List.map_nil, List.append_nil]; rfl⟩
  | cons t ts ih =>
      rw [List.forall_mem_cons] at hread
      rw [widths] at h
      rw [rowSlots]
      have hstep : GoesOn (widths false ts) refuse pos bytes cells (rowSlots none ts)
          (readHeads refuse pos bytes unread cells
            (slotOf false t (decodeIn none t) :: rowSlots none ts)) := by
        cases hb : t.isBool with
        | true =>
            obtain rfl := eq_bool_of_isBool hb
            exact goesOn_bit h
        | false =>
            cases hn : t.length? false with
            | none =>
                rw [hn, widthOf_none hb] at h
                obtain ⟨run, -, -, hn⟩ := h
                cases hn
            | some n =>
                rw [hn, widthOf_some hb] at h
                rw [slotOf_fixed hb (isDynamic_of_length? hn) hn]
                exact goesOn_fixed (hread.1 hn) h
      -- what is left behind the first component is just what the others need
      obtain ⟨v, pos', bytes', unread', hremains, hpos, hout⟩ := hstep
      obtain ⟨vs, hvs⟩ := @ih bytes' pos' unread' (.known v :: cells) hread.2 hremains
      refine ⟨v :: vs, hout.trans ?_⟩
      rw [hvs, hpos, List.reverse_cons, List.append_assoc, List.map_cons, List.singleton_append]

/-- Any bytes in the number that a row adds up to are read as the row. -/
theorem exists_readRow {ts : List Descriptor} (refuse : Malformation → Fault)
    (hread : ∀ t ∈ ts, ∀ {n}, t.fixedLength? = some n → ∀ raw : Bytes, raw.length = n →
      ∃ w, t.decode raw = .ok w)
    (hn : rowLength 0 (widths false ts) = some bytes.length) :
    ∃ items, readRow refuse bytes (rowSlots none ts) = .ok items := by
  have hremains : Remains (widths false ts) ⟨0, 0⟩ bytes := ⟨0, by omega, rfl, hn⟩
  obtain ⟨vs, hheads⟩ : ∃ vs : List Value, readHeads refuse 0 bytes ⟨0, 0⟩ [] (rowSlots none ts)
      = .ok (0 + bytes.length, [], [].reverse ++ vs.map .known) :=
    exists_readHeads hread hremains
  refine ⟨vs, ?_⟩
  rw [readRow, hheads]
  simp only [List.reverse_nil, List.nil_append, nextStart?_known, List.isEmpty_nil, Bool.not_true,
    Bool.and_false, Bool.false_eq_true, if_false, readTails_known]

end Rows

/-! ## Reading -/

/-- Any bytes in the number that a leaf takes are read as the leaf. -/
theorem exists_decode_leaf (ht : t.isSequence = false) (hn : t.fixedLength? = some bytes.length) :
    ∃ w, t.decode bytes = .ok w := by
  have hsize : ∀ t : Descriptor, t.expectSize bytes.length bytes = .ok () := fun t =>
    expectSize_eq_ok_iff.mpr rfl
  have haddress : ∀ t : Descriptor, bytes.length = 32 → ∃ a, t.readAddress bytes = .ok a := by
    intro t h
    exact ⟨_, by rw [readAddress, Address.ofBytes?, Bytes32.ofBytes?, dif_pos h]; rfl⟩
  cases t with
  | bool =>
      obtain ⟨b, rfl⟩ := List.length_eq_one_iff.mp (Option.some.inj hn).symm
      exact ⟨_, rfl⟩
  | uint bits | ufixed bits _ =>
      have hn : bits / 8 = bytes.length := Option.some.inj hn
      exact ⟨.uint bytes.toNat, by rw [decode, decodeIn, hn, hsize]; rfl⟩
  | byte =>
      have hn : 1 = bytes.length := Option.some.inj hn
      exact ⟨.uint bytes.toNat, by rw [decode, decodeIn, hn, hsize]; rfl⟩
  | staticBytes n =>
      have hn : n = bytes.length := Option.some.inj hn
      exact ⟨.bytes bytes, by rw [decode, decodeIn, hn, hsize]; rfl⟩
  | address =>
      obtain ⟨a, ha⟩ := haddress address (Option.some.inj hn).symm
      exact ⟨.address a, by rw [decode, decodeIn, ha]; rfl⟩
  | account =>
      obtain ⟨a, ha⟩ := haddress account (Option.some.inj hn).symm
      exact ⟨.account a, by rw [decode, decodeIn, ha]; rfl⟩
  | asset =>
      have hn : 8 = bytes.length := Option.some.inj hn
      exact ⟨.asset (.ofNat bytes.toNat), by rw [decode, decodeIn, readId, hn, hsize]; rfl⟩
  | application =>
      have hn : 8 = bytes.length := Option.some.inj hn
      exact ⟨.application (.ofNat bytes.toNat), by rw [decode, decodeIn, readId, hn, hsize]; rfl⟩
  | string | dynamicBytes => simp [fixedLength?, length?] at hn
  | _ => cases ht

/-- A static array that has a length passes the check on bytes in that number. -/
theorem guardPasses_of_length (hbounded : t.ArrayBounded) (hstatic : t.isDynamic = false)
    (hn : t.fixedLength? = some bytes.length) : t.GuardPasses bytes := by
  cases t with
  | staticArray element count =>
      refine ⟨hbounded, ?_⟩
      rw [isDynamic] at hstatic
      rw [fixedLength?, length?] at hn
      rw [leastRow]
      cases hb : element.isBool with
      | true =>
          rw [hb, if_pos rfl] at hn
          exact Nat.le_of_eq (Option.some.inj hn)
      | false =>
          rw [hb, if_neg (by simp)] at hn
          obtain ⟨size, hsize, hn⟩ := Option.bind_eq_some_iff.mp hn
          have hsize : element.fixedLength? = some size := hsize
          split at hn
          · rw [hsize, hstatic]
            exact Nat.le_of_eq (Option.some.inj hn)
          · cases hn
  | _ => trivial

/-- A static sequence has one number of components and no count in front. -/
theorem exists_takesCount (ht : t.isSequence = true) (hstatic : t.isDynamic = false) :
    ∃ count, t.TakesCount count ∧ t.rowCount count = .ok [] := by
  cases t with
  | staticArray element count => exact ⟨count, rfl, rfl⟩
  | tuple ts => exact ⟨ts.length, rfl, rfl⟩
  | struct name fs => exact ⟨fs.length, rfl, rfl⟩
  | dynamicArray element => cases hstatic
  | _ => cases ht

/-- **ANY BYTES OF ITS LENGTH DECODE** as a static type, whatever they are. -/
theorem exists_decode_of_length (hwf : t.WellFormed) (hn : t.fixedLength? = some bytes.length) :
    ∃ w, t.decode bytes = .ok w := by
  induction t using Descriptor.inductOn generalizing bytes with
  | step t ih =>
      cases ht : t.isSequence with
      | false => exact exists_decode_leaf ht hn
      | true =>
          have hstatic := isDynamic_of_length? hn
          obtain ⟨count, htakes, hfront⟩ := exists_takesCount ht hstatic
          have hread : ∀ c ∈ t.rowTypes count, ∀ {n}, c.fixedLength? = some n →
              ∀ raw : Bytes, raw.length = n → ∃ w, c.decode raw = .ok w := by
            intro c hc n hn raw hraw
            have hinner := mem_inner_of_mem_rowTypes hc
            exact ih c hinner (hwf.inside hinner) (hraw ▸ hn)
          obtain ⟨items, hitems⟩ :=
            exists_readRow t.refusal hread (rowLength_rowTypes hn ht htakes)
          refine ⟨t.rowValue items, (decodeIn_sequence_eq_ok_iff ht).mpr ?_⟩
          exact ⟨count, [], bytes, items, htakes, hfront, rfl,
            guardPasses_of_length hwf.here.bounded hstatic hn, hitems, rfl⟩

theorem exists_decode_iff (hwf : t.WellFormed) (hstatic : t.isDynamic = false)
    (hlt : bytes.length < Limits.length) :
    (∃ w, t.decode bytes = .ok w) ↔ t.fixedLength? = some bytes.length := by
  constructor
  · rintro ⟨w, hw⟩
    cases hn : t.fixedLength? with
    | some n => rw [length_of_decode hwf hw hn]
    | none => exact absurd hlt (Nat.not_lt.mpr (length_le_of_decode hwf hstatic hw hn))
  · exact exists_decode_of_length hwf

/-! ## All of it -/

/-- **STATIC TYPES HAVE ONE LENGTH EVERYWHERE.**  A type has no length when it is dynamic or an
    array that is too long.  Whatever is encoded as a static type, in either layout of references
    and under any bound, takes the length of the type in that layout; and with references by value
    a buffer decodes as a static type exactly when it has its length. -/
theorem one_length_of_addressable (h : t.Addressable) :
    (t.fixedLength? = none ↔ t.isDynamic = true ∨ t.Overlong) ∧
      (t.isDynamic = false →
        (∀ max v before bytes after, max < Limits.length →
          Yields (t.encodeWithin max v) before bytes after →
            t.length? before.isSome = some bytes.length) ∧
        ∀ bytes : Bytes, bytes.length < Limits.length →
          ((∃ w, t.decode bytes = .ok w) ↔ t.fixedLength? = some bytes.length)) := by
  have hwf := h.wellFormed
  refine ⟨fixedLength?_eq_none_iff hwf, ?_⟩
  intro hstatic
  constructor
  · intro max v before bytes after hmax hyields
    obtain ⟨hyields, hle⟩ := yields_encodeWithin_iff.mp hyields
    exact length?_of_yields hwf hstatic hyields (Nat.lt_of_le_of_lt hle hmax)
  · intro bytes hlt
    exact exists_decode_iff hwf hstatic hlt

/-- Two flags, an account and nine more flags: the flags take one byte and two bytes, and the
    account takes one byte by index. -/
theorem one_length_of_addressable_badges :
    let badges := tuple [bool, bool, account, staticArray bool 9]
    badges.Addressable ∧ badges.isDynamic = false ∧
      (∀ max v before bytes after, max < Limits.length →
        Yields (badges.encodeWithin max v) before bytes after →
          bytes.length = if before.isSome then 4 else 35) ∧
      ∀ bytes : Bytes, bytes.length < Limits.length →
        ((∃ w, badges.decode bytes = .ok w) ↔ bytes.length = 35) := by
  intro badges
  have hbool : bool.Addressable := addressable_leaf rfl trivial (by decide)
  have haccount : account.Addressable := addressable_leaf rfl trivial (by decide)
  have hflags : (staticArray bool 9).Addressable := by
    refine .intro ⟨(wellFormed_staticArray hbool.wellFormed rfl (by decide)).here, ?_⟩ ?_
    · rintro n ⟨⟩
      decide
    · intro c hc
      rw [List.mem_singleton.mp hc]
      exact hbool
  have hsome : ∀ c ∈ badges.inner, c.Addressable ∧ ∃ n, c.fixedLength? = some n := by
    simp only [badges, inner, List.forall_mem_cons]
    exact ⟨⟨hbool, 1, rfl⟩, ⟨hbool, 1, rfl⟩, ⟨haccount, 32, rfl⟩, ⟨hflags, 2, rfl⟩, by simp⟩
  have hbadges : badges.Addressable := by
    refine .intro ⟨⟨⟨trivial, trivial⟩, trivial, fun c hc _ => (hsome c hc).2⟩, ?_⟩
      fun c hc => (hsome c hc).1
    rintro n ⟨⟩
    decide
  obtain ⟨-, hstatic⟩ := one_length_of_addressable hbadges
  obtain ⟨hwritten, hread⟩ := hstatic rfl
  refine ⟨hbadges, rfl, ?_, ?_⟩
  · intro max v before bytes after hmax hyields
    have hlength := hwritten max v before bytes after hmax hyields
    cases before with
    | none => exact (Option.some.inj hlength).symm
    | some table => exact (Option.some.inj hlength).symm
  · intro bytes hlt
    rw [hread bytes hlt]
    exact ⟨fun h => (Option.some.inj h).symm, fun h => h ▸ rfl⟩

/-- An array of 2^72 bytes, in four dimensions. -/
def hypercube : Descriptor :=
  staticArray (staticArray (staticArray (staticBytes 262144) 262144) 262144) 262144

theorem wellFormed_hypercube : hypercube.WellFormed := by
  have hbound : 262144 ≤ 8 * Limits.box := by decide
  have hline : (staticBytes 262144).WellFormed := wellFormed_leaf rfl trivial
  have hsquare := wellFormed_staticArray hline rfl hbound
  have hcube := wellFormed_staticArray hsquare
    (by decide +kernel : _ = some (262144 * 262144)) hbound
  exact wellFormed_staticArray hcube
    (by decide +kernel : _ = some (262144 * 262144 * 262144)) hbound

/-- **A STATIC TYPE CAN BE WITHOUT LENGTH.** -/
theorem length_not_by_isDynamic :
    ¬∀ t : Descriptor, t.WellFormed → (t.fixedLength? = none ↔ t.isDynamic = true) := by
  intro hall
  have hnone : hypercube.fixedLength? = none := by decide +kernel
  exact absurd ((hall hypercube wellFormed_hypercube).mp hnone) (by decide)

end Descriptor

end AvmSandbox
