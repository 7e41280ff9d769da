import AvmSandbox.Proofs.Codec.Built
import AvmSandbox.Proofs.Codec.Canonical

/-! # Edits — bytes and native value stay together

    An edit replaces the bytes of an encoded value before it brings the new
    native value into canonical form, which could fail in between.  It never
    does, so that an edit either is made in both places or in neither.

    * `Edit` with `change`, which is what an edit makes of the native value, and
      `run_edit`: it is made as a whole or not at all;
    * `Agrees`: what bytes and native value have to do with each other, and
      `Built.agrees`, by induction on how the value was made;
    * `edits_of_built` puts both together. -/

namespace AvmSandbox

namespace EncodedValue

open Encoding Descriptor

variable {e e' : EncodedValue} {type : Descriptor} {v : Value}

/-! ## Encoding -/

theorem encodeWithin_yields_iff {max : Nat} {before after : Layout} :
    Yields (encodeWithin max type v) before e after ↔
      e.type = type ∧ Yields (type.encodeIn v) before e.bytes after ∧ e.bytes.length ≤ max ∧
        type.canonical v = .ok e.native := by
  rw [encodeWithin, yields_bind]
  simp only [yields_lift_bind, yields_pure, Descriptor.yields_encodeWithin_iff]
  constructor
  · rintro ⟨bytes, _, ⟨hyields, hle⟩, w, hw, rfl, rfl⟩
    exact ⟨rfl, hyields, hle, hw⟩
  · rintro ⟨rfl, hyields, hle, hw⟩
    exact ⟨e.bytes, after, ⟨hyields, hle⟩, e.native, hw, rfl, rfl⟩

theorem encode_eq_ok_iff :
    encode type v = .ok e ↔
      e.type = type ∧ type.encode v = .ok e.bytes ∧ type.canonical v = .ok e.native := by
  constructor
  · exact of_encodeUpTo
  · rintro ⟨rfl, hbytes, hnative⟩
    obtain ⟨hyields, hle⟩ := encodeUpTo_eq_ok_iff.mp hbytes
    exact congrArg Prod.fst (encodeWithin_yields_iff.mpr ⟨rfl, hyields, hle, hnative⟩)

/-! ## Edits as a whole -/

/-- What can be done to an encoded value. -/
inductive Edit where
  | push (v : Value)
  | replaceItem (index : Nat) (v : Value)

namespace Edit

/-- Makes an edit. -/
def run (e : EncodedValue) : Edit → Result Unit × EncodedValue
  | push v => (EncodedValue.push v).run e
  | replaceItem index v => (EncodedValue.replaceItem index v).run e

/-- The native value with one component more at its end. -/
def pushed (v : Value) : Descriptor → Value → Result Value
  | dynamicArray _, .list items => .ok (.list (items ++ [v]))
  | dynamicBytes, .bytes b => do return .bytes (b ++ [← v.asByte])
  | t, _ => .error (.typeMismatch "dynamic array" t.name)

/-- The native value that an edit asks for. -/
def change (e : EncodedValue) : Edit → Result Value
  | push v => pushed v e.type e.native
  | replaceItem index v => do setItem e.native index (← e.checkIndex index) v

/-- An edit encodes the native value that it asks for. -/
theorem run_eq (edit : Edit) (e : EncodedValue) :
    edit.run e =
      match edit.change e with
      | .ok native => (reencode native).run e
      | .error fault => (.error fault, e) := by
  cases edit with
  | push v =>
      rw [run, EncodedValue.push, Action.run_get_bind, change]
      split
      · next htype hnative =>
          rw [htype, hnative]
          rfl
      · next htype hnative =>
          rw [htype, hnative, Action.run_lift_bind, pushed]
          cases v.asByte <;> rfl
      · next hlist hbytes =>
          rw [pushed]
          · rfl
          · exact hlist
          · exact hbytes
  | replaceItem index v =>
      rw [run, EncodedValue.replaceItem, Action.run_get_bind, Action.run_lift_bind, change]
      cases e.checkIndex index with
      | error fault => rfl
      | ok length =>
          show (liftM (setItem e.native index length v) >>= reencode : Editing Unit).run e =
            match setItem e.native index length v with
            | .ok native => (reencode native).run e
            | .error fault => (.error fault, e)
          rw [Action.run_lift_bind]
          cases setItem e.native index length v <;> rfl

end Edit

/-- The bytes are replaced exactly when the native value can be encoded, and then the native value
    is replaced as well. -/
theorem run_reencode (native : Value) (hvalid : e.type.Valid) :
    (∃ bytes w, e.type.encode native = .ok bytes ∧ e.type.canonical native = .ok w ∧
      (reencode native).run e = (.ok (), { e with bytes, native := w })) ∨
    ∃ fault, e.type.encode native = .error fault ∧ (reencode native).run e = (.error fault, e) := by
  cases hbytes : e.type.encode native with
  | error fault =>
      right
      refine ⟨fault, rfl, ?_⟩
      rw [reencode, Action.run_get_bind, Action.run_lift_bind, hbytes]
  | ok bytes =>
      left
      obtain ⟨w, hw, -⟩ := canonical_of_yields hvalid (encodeUpTo_eq_ok_iff.mp hbytes).1
      refine ⟨bytes, w, rfl, hw, ?_⟩
      rw [reencode, Action.run_get_bind, Action.run_lift_bind, hbytes]
      dsimp only
      rw [Action.run_set_bind, Action.run_lift_bind, hw]
      rfl

/-- **AN EDIT IS MADE AS A WHOLE OR NOT AT ALL.** -/
theorem run_edit (edit : Edit) (hvalid : e.type.Valid) :
    (∃ native bytes w, edit.change e = .ok native ∧ e.type.encode native = .ok bytes ∧
      e.type.canonical native = .ok w ∧ edit.run e = (.ok (), { e with bytes, native := w })) ∨
    ∃ fault, (edit.change e >>= e.type.encode) = .error fault ∧ edit.run e = (.error fault, e) := by
  rw [edit.run_eq]
  cases hchange : edit.change e with
  | error fault => exact .inr ⟨fault, rfl, rfl⟩
  | ok native =>
      rcases run_reencode native hvalid with ⟨bytes, w, hbytes, hw, hrun⟩ | ⟨fault, hfault, hrun⟩
      · exact .inl ⟨native, bytes, w, rfl, hbytes, hw, hrun⟩
      · exact .inr ⟨fault, hfault, hrun⟩

/-- An edit that succeeds leaves the encoding of the native value that it asks for. -/
theorem run_edit_eq_ok_iff (edit : Edit) (hvalid : e.type.Valid) :
    edit.run e = (.ok (), e') ↔
      ∃ native, edit.change e = .ok native ∧ encode e.type native = .ok e' := by
  rcases run_edit edit hvalid with
    ⟨native, bytes, w, hchange, hbytes, hw, hrun⟩ | ⟨fault, hfault, hrun⟩
  · rw [hrun]
    constructor
    · intro h
      cases h
      exact ⟨native, hchange, encode_eq_ok_iff.mpr ⟨rfl, hbytes, hw⟩⟩
    · rintro ⟨native', hchange', hencode⟩
      cases hchange.symm.trans hchange'
      have hsame : encode e.type native = .ok ⟨e.type, bytes, w⟩ :=
        encode_eq_ok_iff.mpr ⟨rfl, hbytes, hw⟩
      cases hencode.symm.trans hsame
      rfl
  · rw [hrun]
    constructor
    · intro h
      cases h
    · rintro ⟨native, hchange, hencode⟩
      rw [hchange, ok_bind, (encode_eq_ok_iff.mp hencode).2.1] at hfault
      cases hfault

/-! ## Bytes and native value -/

/-- What bytes and native value have to do with each other: the bytes decode to a value that is
    encoded like the native one, which has its components in the order of the type. -/
structure Agrees (e : EncodedValue) : Prop where
  wellFormed : e.type.WellFormed
  decoded : ∃ w bytes, e.type.decode e.bytes = .ok w ∧ Yields (e.type.encodeIn w) none bytes none ∧
    Yields (e.type.encodeIn e.native) none bytes none
  ordered : e.type.isSequence = true → ∃ items, e.type.InOrder e.native items

/-- The canonical form of what was encoded agrees with the bytes, which are its encoding. -/
theorem agrees_of_encode {max : Nat} {bytes : Bytes} {native : Value} (hwf : type.WellFormed)
    (hbytes : type.encodeUpTo max v = .ok bytes) (hnative : type.canonical v = .ok native) :
    Agrees ⟨type, bytes, native⟩ ∧ Yields (type.encodeIn native) none bytes none := by
  obtain ⟨hyields, -⟩ := encodeUpTo_eq_ok_iff.mp hbytes
  obtain ⟨w, hw, hagain, hordered⟩ := canonical_of_yields hwf.valid hyields
  cases hnative.symm.trans hw
  obtain ⟨u, hu, hdecoded, -⟩ := exists_decode_of_yields hwf hyields
  exact ⟨⟨hwf, ⟨u, bytes, hu, hdecoded, hagain⟩, hordered⟩, hagain⟩

theorem agrees_of_encodeUpTo {max : Nat} (hwf : type.WellFormed)
    (h : encodeUpTo max type v = .ok e) : e.Agrees := by
  obtain ⟨rfl, hbytes, hnative⟩ := of_encodeUpTo h
  exact (agrees_of_encode hwf hbytes hnative).1

theorem agrees_of_decode {framing : Framing} {buffer : Bytes} (hwf : type.WellFormed)
    (h : decode framing type buffer = .ok e) : e.Agrees := by
  obtain ⟨bytes, -, h⟩ := bind_eq_ok_iff.mp h
  obtain ⟨native, hnative, h⟩ := bind_eq_ok_iff.mp h
  obtain rfl := pure_eq_ok_iff.mp h
  have hread := readAs_of_decodeIn hwf.valid hnative
  obtain ⟨w, hw, -, hordered⟩ := canonical_of_yields hwf.valid hread.yields
  cases hread.canonical.symm.trans hw
  exact ⟨hwf, ⟨native, _, hnative, hread.yields, hread.yields⟩, hordered⟩

theorem agrees_of_edit (edit : Edit) (he : e.Agrees) : (edit.run e).2.Agrees := by
  rcases run_edit edit he.wellFormed.valid with
    ⟨native, bytes, w, -, hbytes, hw, hrun⟩ | ⟨fault, -, hrun⟩
  · rw [hrun]
    exact (agrees_of_encode he.wellFormed hbytes hw).1
  · rw [hrun]
    exact he

/-- **BYTES AND NATIVE VALUE AGREE**, by induction on how they were made. -/
theorem Built.agrees (h : Built e) : e.Agrees := by
  induction h with
  | encoded hwf h => exact agrees_of_encodeUpTo hwf h
  | decoded hwf h => exact agrees_of_decode hwf h
  | item _ h ih =>
      obtain ⟨type, v, hwf, hencode⟩ := exists_encode_of_item ih.wellFormed h
      exact agrees_of_encodeUpTo hwf hencode
  | field _ h ih =>
      obtain ⟨type, v, hwf, hencode⟩ := exists_encode_of_field ih.wellFormed h
      exact agrees_of_encodeUpTo hwf hencode
  | replaced index v _ ih => exact agrees_of_edit (.replaceItem index v) ih
  | pushed v _ ih => exact agrees_of_edit (.push v) ih

/-- **BYTES AND NATIVE VALUE NEVER DRIFT APART**: the bytes decode to a value that is encoded like
    the native one.  An edit that succeeds leaves the encoding of the native value, an edit that
    fails leaves everything, and a value that can be encoded has a canonical form, which is encoded
    alike. -/
theorem edits_of_built (h : Built e) :
    (∃ w bytes, e.type.decode e.bytes = .ok w ∧ (e.type.encodeIn w).plain = .ok bytes ∧
      (e.type.encodeIn e.native).plain = .ok bytes) ∧
    (∀ (edit : Edit) e', edit.run e = (.ok (), e') →
      e'.type = e.type ∧ (e'.type.encodeIn e'.native).plain = .ok e'.bytes) ∧
    (∀ (edit : Edit) fault e', edit.run e = (.error fault, e') → e' = e) ∧
    ∀ v bytes, e.type.encode v = .ok bytes →
      ∃ w, e.type.canonical v = .ok w ∧ (e.type.encodeIn w).plain = .ok bytes := by
  have hagrees := h.agrees
  have hplain : ∀ {v bytes}, Yields (e.type.encodeIn v) none bytes none →
      (e.type.encodeIn v).plain = .ok bytes := fun h => congrArg Prod.fst h
  refine ⟨?_, ?_, ?_, ?_⟩
  · obtain ⟨w, bytes, hw, hdecoded, hnative⟩ := hagrees.decoded
    exact ⟨w, bytes, hw, hplain hdecoded, hplain hnative⟩
  · intro edit e' hrun
    rcases run_edit edit hagrees.wellFormed.valid with
      ⟨native, bytes, w, -, hbytes, hw, hrun'⟩ | ⟨fault, -, hrun'⟩
    · cases hrun.symm.trans hrun'
      exact ⟨rfl, hplain (agrees_of_encode hagrees.wellFormed hbytes hw).2⟩
    · cases hrun.symm.trans hrun'
  · intro edit fault e' hrun
    rcases run_edit edit hagrees.wellFormed.valid with
      ⟨native, bytes, w, -, -, -, hrun'⟩ | ⟨fault, -, hrun'⟩
    · cases hrun.symm.trans hrun'
    · cases hrun.symm.trans hrun'
      rfl
  · intro v bytes hbytes
    obtain ⟨w, hw, hyields, -⟩ :=
      canonical_of_yields hagrees.wellFormed.valid (encodeUpTo_eq_ok_iff.mp hbytes).1
    exact ⟨w, hw, hplain hyields⟩

/-- Two flags with six spare bits set: an edit writes the byte anew, without them. -/
theorem edits_of_built_flags :
    let flags := staticArray bool 2
    let e : EncodedValue := ⟨flags, [0xff], .list [.bool true, .bool true]⟩
    let e' : EncodedValue := ⟨flags, [0x80], .list [.bool true, .bool false]⟩
    Built e ∧ (Edit.replaceItem 1 (.bool false)).run e = (.ok (), e') ∧
      (flags.encodeIn e'.native).plain = .ok e'.bytes ∧
      ∃ w bytes, flags.decode e.bytes = .ok w ∧ (flags.encodeIn w).plain = .ok bytes ∧
        (flags.encodeIn e.native).plain = .ok bytes := by
  intro flags e e'
  have hwf : flags.WellFormed := by
    refine .intro ⟨⟨trivial, trivial⟩, (by decide : 2 ≤ 8 * Limits.box), ?_⟩ ?_
    · intro c hc _
      rw [List.mem_singleton.mp hc]
      exact ⟨1, by decide⟩
    · intro c hc
      rw [List.mem_singleton.mp hc]
      exact wellFormed_leaf rfl trivial
  have hdecode : decode .bare flags [0xff] = .ok e := by decide +kernel
  have hbuilt : Built e := .decoded hwf hdecode
  have hrun : (Edit.replaceItem 1 (.bool false)).run e = (.ok (), e') := by decide +kernel
  obtain ⟨hagree, hedits, -, -⟩ := edits_of_built hbuilt
  exact ⟨hbuilt, hrun, (hedits _ e' hrun).2, hagree⟩

end EncodedValue

end AvmSandbox
