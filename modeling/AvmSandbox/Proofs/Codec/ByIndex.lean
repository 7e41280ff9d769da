import AvmSandbox.Proofs.Codec.Edits

/-! # By index and by value — what the two layouts of references have in common

    A value without references is written the same in every layout.  A reference
    takes one byte by index and more by value, so a value that holds one is
    shorter by index, however deep the reference stands.

    * `ReferenceFree`: no position of a value is a reference;
    * `yields_of_referenceFree`: such a value is written the same everywhere;
    * `length_le_byValue`: no value is longer by index, and only such a value has
      the same length;
    * `EncodedValue.decode_log_iff`: the log entry of an encoded value is decoded by
      value, so that is where it is found again. -/

namespace AvmSandbox

namespace Descriptor

open Encoding

/-- Whether no position of a value is a reference. -/
def ReferenceFree : Descriptor → Value → Prop := Everywhere fun t _ => t.isReference = false

/-- No sequence is a reference. -/
theorem isReference_of_isSequence {t : Descriptor} (ht : t.isSequence = true) :
    t.isReference = false := by
  cases t with
  | account | asset | application => cases ht
  | _ => rfl

/-! ## Values without references -/

theorem RowYields.anywhere {ts : List Descriptor} {items : List Value} {before after : Layout}
    {parts : List Part}
    {layout : Layout}
    (hsame : ∀ c ∈ ts.zip items, ∀ {before after bytes},
      Yields (c.1.encodeIn c.2) before bytes after → Yields (c.1.encodeIn c.2) layout bytes layout)
    (h : RowYields ts items before parts after) : RowYields ts items layout parts layout := by
  induction h with
  | nil => exact .nil
  | bit b _ ih =>
      rw [List.zip_cons_cons, List.forall_mem_cons] at hsame
      exact .bit b (ih hsame.2)
  | whole hb hbytes _ ih =>
      rw [List.zip_cons_cons, List.forall_mem_cons] at hsame
      exact .whole hb (hsame.1 hbytes) (ih hsame.2)

/-- **WITHOUT REFERENCES THE LAYOUT DOES NOT MATTER**, nor does it grow. -/
theorem yields_of_referenceFree {t : Descriptor} {v : Value} {before after : Layout}
    {bytes : Bytes} (hv : t.HasForm v) (hfree : t.ReferenceFree v)
    (h : Yields (t.encodeIn v) before bytes after) (layout : Layout) :
    Yields (t.encodeIn v) layout bytes layout := by
  induction t using Descriptor.inductOn generalizing v before after bytes with
  | step t ih =>
      cases ht : t.isSequence with
      | false =>
          obtain ⟨hvariant, harity⟩ := hv.here
          obtain ⟨hfits, hbytes, -⟩ := (yields_encodeIn_leaf ht hfree.here hvariant harity).mp h
          exact (yields_encodeIn_leaf ht hfree.here hvariant harity).mpr ⟨hfits, hbytes, rfl⟩
      | true =>
          obtain ⟨items, parts, body, count, hitems, hparts, hbody, hcount, rfl⟩ :=
            (yields_encodeIn_sequence ht).mp h
          have hentries := entries_eq_zip hv.here.1 hitems
          have hrow := hparts.anywhere (fun c hc _ _ _ hbytes => by
            rw [← hentries] at hc
            exact ih c.1 (mem_inner_of_mem_entries hc) (hv.inside hc) (hfree.inside hc) hbytes)
          exact (yields_encodeIn_sequence ht).mpr
            ⟨items, parts, body, count, hitems, hrow, hbody, hcount, rfl⟩

/-! ## Lengths -/

/-- Whether an encoding is no longer than another one, and as long only without references. -/
def NoLonger (t : Descriptor) (v : Value) (bytes bytes' : Bytes) : Prop :=
  bytes.length ≤ bytes'.length ∧ (bytes.length = bytes'.length → t.ReferenceFree v)

/-- Without references there are none afterwards. -/
theorem layout_eq_none {t : Descriptor} {v : Value} {bytes : Bytes} {after : Layout}
    (h : Yields (t.encodeIn v) none bytes after) : after = none := by
  cases grows_encodeIn h
  rfl

/-- A leaf is as long by index, or it is a reference and shorter. -/
theorem noLonger_leaf {t : Descriptor} {v : Value} {before after : Layout} {bytes bytes' : Bytes}
    (ht : t.isSequence = false) (hv : t.HasForm v) (hindex : before.isSome = true)
    (h : Yields (t.encodeIn v) before bytes after) (h' : Yields (t.encodeIn v) none bytes' none) :
    t.NoLonger v bytes bytes' := by
  obtain ⟨hvariant, harity⟩ := hv.here
  cases hr : t.isReference with
  | false =>
      obtain ⟨-, rfl, -⟩ := (yields_encodeIn_leaf ht hr hvariant harity).mp h
      obtain ⟨-, rfl, -⟩ := (yields_encodeIn_leaf ht hr hvariant harity).mp h'
      exact ⟨Nat.le_refl _, fun _ => everywhere_leaf ht hr⟩
  | true =>
      have hone : bytes.length = 1 := by
        rw [yields_encodeIn_reference hr hvariant, yields_reference] at h
        rcases h with ⟨rfl, -⟩ | ⟨_, _, i, -, -, -, rfl⟩
        · cases hindex
        · rfl
      have hmore : 1 < bytes'.length := by
        obtain ⟨n, hn, hlt⟩ : ∃ n, t.length? false = some n ∧ 1 < n := by
          cases t with
          | account => exact ⟨32, by simp [length?], by decide⟩
          | asset | application => exact ⟨8, by simp [length?], by decide⟩
          | _ => cases hr
        rwa [length_leaf ht h' hn]
      exact ⟨by omega, by omega⟩

/-- A row whose components are no longer by index than by value is no longer itself, and as long
    only without references. -/
theorem RowYields.noLonger {ts : List Descriptor} {items : List Value} {before after after' : Layout}
    {parts parts' : List Part} {unread unread' : Unread} {offset offset' : Nat}
    {front front' : Bytes} (hindex : before.isSome = true)
    (hcomponent : ∀ c ∈ ts.zip items, ∀ {before after bytes bytes'}, before.isSome = true →
      Yields (c.1.encodeIn c.2) before bytes after → Yields (c.1.encodeIn c.2) none bytes' none →
      c.1.NoLonger c.2 bytes bytes')
    (h : RowYields ts items before parts after) (h' : RowYields ts items none parts' after')
    (hfront : HeadsAt unread offset parts front)
    (hfront' : HeadsAt unread' offset' parts' front') (hcount : unread.count = unread'.count) :
    (front ++ tailBytes parts).length ≤ (front' ++ tailBytes parts').length ∧
      ((front ++ tailBytes parts).length = (front' ++ tailBytes parts').length →
        ∀ c ∈ ts.zip items, c.1.ReferenceFree c.2) := by
  induction h generalizing parts' unread unread' offset offset' front front' with
  | nil =>
      cases h'
      obtain rfl : front = [] := hfront
      exact ⟨Nat.zero_le _, fun _ => by simp⟩
  | @bit ts items before after parts b _ ih =>
      rw [List.zip_cons_cons, List.forall_mem_cons] at hcomponent ⊢
      cases h' with
      | whole hb => cases hb
      | @bit _ _ _ _ parts' _ h' =>
          have hbool : bool.ReferenceFree (.bool b) := everywhere_leaf rfl rfl
          obtain ⟨count, byte⟩ := unread
          obtain ⟨count', byte'⟩ := unread'
          -- both rows stand at the same bit of a byte
          obtain rfl : count = count' := hcount
          rw [tailBytes_cons, tailBytes_cons]
          show (front ++ tailBytes parts).length ≤ (front' ++ tailBytes parts').length ∧
            ((front ++ tailBytes parts).length = (front' ++ tailBytes parts').length → _)
          cases count with
          | succ left =>
              obtain ⟨-, hrest⟩ := hfront
              obtain ⟨-, hrest'⟩ := hfront'
              obtain ⟨hle, hfree⟩ := ih hindex hcomponent.2 h' hrest hrest' rfl
              exact ⟨hle, fun heq => ⟨hbool, hfree heq⟩⟩
          | zero =>
              obtain ⟨_, rest, rfl, -, hrest⟩ := hfront
              obtain ⟨_, rest', rfl, -, hrest'⟩ := hfront'
              obtain ⟨hle, hfree⟩ := ih hindex hcomponent.2 h' hrest hrest' rfl
              simp only [List.cons_append, List.length_cons]
              exact ⟨by omega, fun heq => ⟨hbool, hfree (by omega)⟩⟩
  | @whole t ts v items before middle after bytes parts hb hbytes _ ih =>
      rw [List.zip_cons_cons, List.forall_mem_cons] at hcomponent ⊢
      cases h' with
      | bit b => cases hb
      | @whole _ _ _ _ _ middle' _ bytes' parts' _ hbytes' h' =>
          obtain rfl := layout_eq_none hbytes'
          have hsome : middle.isSome = true := by rw [(grows_encodeIn hbytes).isSome_eq, hindex]
          -- the first component is no longer by index, and the others follow
          obtain ⟨hfirst, hfirstFree⟩ := hcomponent.1 hindex hbytes hbytes'
          rw [tailBytes_cons, tailBytes_cons]
          cases hd : t.isDynamic with
          | true =>
              rw [wholePart_varying hd] at hfront hfront' ⊢
              rw [wholePart_varying hd]
              obtain ⟨_, _, rest, rfl, -, hrest⟩ := hfront
              obtain ⟨_, _, rest', rfl, -, hrest'⟩ := hfront'
              obtain ⟨hle, hfree⟩ := ih hsome hcomponent.2 h' hrest hrest' rfl
              simp only [Part.tail, List.length_append, List.length_cons] at hle hfree ⊢
              exact ⟨by omega, fun heq => ⟨hfirstFree (by omega), hfree (by omega)⟩⟩
          | false =>
              rw [wholePart_fixed hd] at hfront hfront' ⊢
              rw [wholePart_fixed hd]
              obtain ⟨rest, rfl, hrest⟩ := hfront
              obtain ⟨rest', rfl, hrest'⟩ := hfront'
              obtain ⟨hle, hfree⟩ := ih hsome hcomponent.2 h' hrest hrest' rfl
              simp only [Part.tail, List.length_append, List.length_nil] at hle hfree ⊢
              exact ⟨by omega, fun heq => ⟨hfirstFree (by omega), hfree (by omega)⟩⟩

/-- **NO VALUE IS LONGER BY INDEX**, and one that holds a reference is shorter. -/
theorem length_le_byValue {t : Descriptor} {v : Value} {before after : Layout}
    {bytes bytes' : Bytes} (hv : t.HasForm v) (hindex : before.isSome = true)
    (h : Yields (t.encodeIn v) before bytes after) (h' : Yields (t.encodeIn v) none bytes' none) :
    t.NoLonger v bytes bytes' := by
  induction t using Descriptor.inductOn generalizing v before after bytes bytes' with
  | step t ih =>
      cases ht : t.isSequence with
      | false => exact noLonger_leaf ht hv hindex h h'
      | true =>
          obtain ⟨items, parts, body, count, hitems, hparts, hbody, hcount, rfl⟩ :=
            (yields_encodeIn_sequence ht).mp h
          obtain ⟨items', parts', body', count', hitems', hparts', hbody', hcount', rfl⟩ :=
            (yields_encodeIn_sequence ht).mp h'
          cases hitems.symm.trans hitems'
          cases hcount.symm.trans hcount'
          obtain ⟨front, hfront, rfl⟩ := isRow_of_assemble hbody
          obtain ⟨front', hfront', rfl⟩ := isRow_of_assemble hbody'
          have hentries := entries_eq_zip hv.here.1 hitems
          obtain ⟨hle, hfree⟩ := hparts.noLonger hindex (fun c hc _ _ _ _ hindex hbytes hbytes' => by
            rw [← hentries] at hc
            exact ih c.1 (mem_inner_of_mem_entries hc) (hv.inside hc) hindex hbytes hbytes')
            hparts' hfront hfront' rfl
          simp only [List.length_append] at hle hfree
          simp only [NoLonger, List.length_append]
          refine ⟨by omega, fun heq => .intro (isReference_of_isSequence ht) ?_⟩
          rw [hentries]
          exact hfree (by omega)

end Descriptor

/-! ## Encoded values in a log -/

namespace EncodedValue

open Encoding Descriptor

variable {t : Descriptor} {v : Value} {max : Nat} {before after : Layout} {e e' : EncodedValue}

theorem decode_log_eq_ok_iff : decode .logged t e.log = .ok e' ↔
    e'.type = t ∧ e'.bytes = e.bytes ∧ t.decode e.bytes = .ok e'.native := by
  rw [decode, log, body_returnLog, ok_bind, bind_eq_ok_iff]
  simp only [pure_eq_ok_iff]
  constructor
  · rintro ⟨w, hw, rfl⟩
    exact ⟨rfl, rfl, hw⟩
  · rintro ⟨rfl, hbytes, hw⟩
    exact ⟨e'.native, hw, by rw [← hbytes]⟩

/-- **AN ENCODED VALUE IS FOUND AGAIN IN ITS LOG ENTRY** exactly when it was encoded by value or
    holds no reference. -/
theorem decode_log_iff (hwf : t.WellFormed) (h : Yields (encodeWithin max t v) before e after)
    (hvariants : t.HasVariants e.native) :
    decode .logged t e.log = .ok e' ∧ e'.native = e.native ↔
      e' = e ∧ (before = none ∨ t.ReferenceFree e.native) := by
  obtain ⟨htype, hyields, -, hw⟩ := encodeWithin_yields_iff.mp h
  -- the native value is canonical, and has the same encoding
  obtain ⟨w, hw', hnative, -⟩ := canonical_of_yields hwf.valid hyields
  obtain rfl : e.native = w := Except.ok.inj (hw.symm.trans hw')
  have hcanonical := canonical_canonical hwf.valid hyields hw hvariants
  have hform := hasForm_of_yields hvariants hnative
  have hbyValue : ∀ {after}, Yields (t.encodeIn e.native) none e.bytes after →
      t.decode e.bytes = .ok e.native := by
    intro after h
    obtain rfl := layout_eq_none h
    exact (decodeIn_eq_ok_iff hwf.valid hform h .byValue).mpr
      ⟨readable_of_wellFormed hwf _, hcanonical⟩
  constructor
  · rintro ⟨hdecode, hsame⟩
    obtain ⟨htype', hbytes, hdecode⟩ := decode_log_eq_ok_iff.mp hdecode
    rw [hsame] at hdecode
    have heq : e' = e := by
      obtain ⟨type, bytes, native⟩ := e
      obtain ⟨type', bytes', native'⟩ := e'
      cases htype
      cases htype'
      cases hbytes
      cases hsame
      rfl
    refine ⟨heq, ?_⟩
    cases before with
    | none => exact .inl rfl
    | some refs =>
        -- what is decoded is as long as its encoding by value
        have has := readAs_of_decodeIn hwf.valid hdecode
        have hlength := (length_le_byValue hform rfl hnative has.yields).2
        exact .inr (hlength (by rw [length_written, has.admitted.length_eq]))
  · rintro ⟨rfl, hlayout⟩
    refine ⟨decode_log_eq_ok_iff.mpr ⟨htype, rfl, ?_⟩, rfl⟩
    rcases hlayout with rfl | hfree
    · exact hbyValue hnative
    · exact hbyValue (yields_of_referenceFree hform hfree hnative none)

end EncodedValue

end AvmSandbox
