import AvmSandbox.Proofs.Codec.RoundTrip

/-! # Canonical values — the native side of an encoding

    A value is brought into canonical form after it was encoded, and this must
    not fail any more.  It does not: the encoder has found all components that
    the canonical form is made of, and it takes them from there again.

    * `canonical_of_rowItems`: a sequence is made up again of its canonical
      components;
    * `canonical_of_yields`: what was encoded has a canonical form, which is encoded
      alike;
    * `canonical_canonical`: a canonical form of the variants that decoding produces
      stays as it is. -/

namespace AvmSandbox

namespace Descriptor

open Encoding

/-! ## Sequences -/

theorem canonicalFields_eq (fs : List (String × Descriptor)) (items : List Value) :
    canonicalFields fs items = canonicalRow (fs.map Prod.snd) items := by
  induction fs generalizing items with
  | nil => cases items <;> rw [canonicalFields] <;> simp [canonicalRow]
  | cons f fs ih =>
      obtain ⟨name, t⟩ := f
      cases items with
      | nil => rw [canonicalFields, List.map_cons, canonicalRow] <;> simp
      | cons v items => rw [canonicalFields, List.map_cons, canonicalRow, ih]

/-- The same container with other components. -/
def withItems (items : List Value) : Value → Value
  | .list _ => .list items
  | .tuple _ => .tuple items
  | .struct fields => .struct ((fields.map Prod.fst).zip items)
  | v => v

theorem withItems_elements {v : Value} {items : List Value} (h : v.elements = .ok items) :
    withItems items v = v := by
  cases v with
  | list _ | tuple _ =>
      cases h
      rfl
  | struct fields =>
      cases h
      rw [withItems, ← List.unzip_fst, ← List.unzip_snd, List.zip_unzip]
  | _ => cases h

/-- Whether a value holds the components that a type takes from it, in the order of the type. -/
structure InOrder (t : Descriptor) (v : Value) (items : List Value) : Prop where
  elements : v.elements = .ok items
  taken : ∀ xs : List Value, xs.length = items.length → t.rowItems (withItems xs v) = .ok xs

theorem InOrder.rowItems {t : Descriptor} {v : Value} {items : List Value}
    (h : t.InOrder v items) : t.rowItems v = .ok items := by
  rw [← h.taken items rfl, withItems_elements h.elements]

theorem inOrder_rowValue {t : Descriptor} {items : List Value} (ht : t.isSequence = true)
    (hnames : t.NamesDistinct) (hcount : t.TakesCount items.length) :
    t.InOrder (t.rowValue items) items := by
  have htaken : ∀ xs : List Value, xs.length = items.length →
      t.rowItems (t.rowValue xs) = .ok xs := by
    intro xs hxs
    exact rowItems_rowValue ht hnames (hxs ▸ hcount)
  cases t with
  | struct name fs =>
      have hlen : items.length = fs.length := hcount
      refine ⟨?_, fun xs hxs => ?_⟩
      · show Except.ok (((fs.map Prod.fst).zip items).map Prod.snd) = _
        rw [List.map_snd_zip (by rw [List.length_map, hlen])]
      · rw [rowValue, withItems, List.map_fst_zip (by rw [List.length_map, hlen])]
        exact htaken xs hxs
  | staticArray _ _ | dynamicArray _ | tuple _ => exact ⟨rfl, htaken⟩
  | _ => cases ht

/-- A sequence is made up again of the canonical forms of its components, in order.  Only a
    struct in the place of a tuple is left as it is. -/
theorem canonical_of_rowItems {t : Descriptor} {v : Value} {items ws : List Value}
    (ht : t.isSequence = true) (hnames : t.NamesDistinct) (hitems : t.rowItems v = .ok items)
    (hws : canonicalRow (t.rowTypes items.length) items = .ok ws)
    (hlen : ws.length = items.length) :
    ∃ w, t.canonical v = .ok w ∧ (t.InOrder w ws ∨ t.InOrder w items) := by
  have hcount := takesCount_of_rowItems hitems
  rw [← hlen] at hcount
  cases t with
  | staticArray t n =>
      obtain ⟨hv, -⟩ := checked_eq_ok_iff.mp hitems
      cases v with
      | list xs =>
          cases hv
          refine ⟨.list ws, ?_, .inl (inOrder_rowValue (t := staticArray t n) rfl hnames hcount)⟩
          rw [canonical, ← canonicalRow_replicate]
          exact bind_eq_ok_iff.mpr ⟨ws, hws, rfl⟩
      | _ => cases hv
  | dynamicArray t =>
      cases v with
      | list xs =>
          cases hitems
          refine ⟨.list ws, ?_, .inl (inOrder_rowValue (t := dynamicArray t) rfl hnames hcount)⟩
          rw [canonical, ← canonicalRow_replicate]
          exact bind_eq_ok_iff.mpr ⟨ws, hws, rfl⟩
      | _ => cases hitems
  | tuple ts =>
      obtain ⟨hv, -⟩ := checked_eq_ok_iff.mp hitems
      cases v with
      | tuple xs =>
          cases hv
          refine ⟨.tuple ws, ?_, .inl (inOrder_rowValue (t := tuple ts) rfl hnames hcount)⟩
          rw [canonical]
          exact bind_eq_ok_iff.mpr ⟨ws, hws, rfl⟩
      -- a list given for a tuple stays a list
      | list xs =>
          cases hv
          refine ⟨.list ws, ?_, .inl ⟨rfl, fun xs hxs => ?_⟩⟩
          · rw [canonical]
            exact bind_eq_ok_iff.mpr ⟨ws, hws, rfl⟩
          · exact checked_eq_ok_iff.mpr ⟨rfl, hxs.trans hcount⟩
      -- a struct given for a tuple is left alone, whatever its fields are
      | struct given =>
          have hgiven : given.map Prod.snd = items := Except.ok.inj hv
          refine ⟨.struct given, ?_, .inr ⟨hv, fun xs hxs => ?_⟩⟩
          · rw [canonical]
            · rfl
            all_goals simp
          · refine checked_eq_ok_iff.mpr ⟨?_, (hxs.trans hlen.symm).trans hcount⟩
            rw [withItems, Value.elements, List.map_snd_zip]
            rw [List.length_map, hxs, ← hgiven, List.length_map]
      | _ => cases hv
  | struct name fs =>
      cases v with
      | struct given =>
          refine ⟨(struct name fs).rowValue ws, ?_, .inl (inOrder_rowValue rfl hnames hcount)⟩
          have hvariant : (struct name fs).VariantHere (.struct given) := trivial
          exact (canonical_sequence_eq_ok_iff rfl hvariant hitems).mpr ⟨ws, hws, rfl⟩
      | tuple xs =>
          rw [rowItems, structItems] at hitems
          split at hitems
          -- a tuple given for a struct stays a tuple
          · next hxs =>
              cases hitems
              refine ⟨.tuple ws, ?_, .inl ⟨rfl, fun xs hxs => ?_⟩⟩
              · rw [canonical, canonicalFields_eq]
                exact bind_eq_ok_iff.mpr ⟨ws, hws, rfl⟩
              · exact if_pos (hxs.trans hcount)
          · cases hitems
      | _ => cases hitems
  | _ => cases ht

/-- The canonical components of a row that is encoded are encoded alike. -/
theorem RowYields.canonical {ts : List Descriptor} {items : List Value} {before after : Layout}
    {parts : List Part}
    (hcanonical : ∀ t ∈ ts, ∀ {v before after bytes}, Yields (t.encodeIn v) before bytes after →
      ∃ w, t.canonical v = .ok w ∧ Yields (t.encodeIn w) before bytes after)
    (h : RowYields ts items before parts after) :
    ∃ ws, canonicalRow ts items = .ok ws ∧ ws.length = items.length ∧
      RowYields ts ws before parts after := by
  induction h with
  | nil => exact ⟨[], canonicalRow_nil [], rfl, .nil⟩
  | bit b _ ih =>
      rw [List.forall_mem_cons] at hcanonical
      obtain ⟨ws, hws, hlen, hrow⟩ := ih hcanonical.2
      refine ⟨.bool b :: ws, ?_, congrArg Nat.succ hlen, .bit b hrow⟩
      exact canonicalRow_cons_eq_ok_iff.mpr ⟨_, ws, canonical_leaf rfl _, hws, rfl⟩
  | whole hb hbytes _ ih =>
      rw [List.forall_mem_cons] at hcanonical
      obtain ⟨ws, hws, hlen, hrow⟩ := ih hcanonical.2
      obtain ⟨w, hw, hbytes⟩ := hcanonical.1 hbytes
      refine ⟨w :: ws, ?_, congrArg Nat.succ hlen, .whole hb hbytes hrow⟩
      exact canonicalRow_cons_eq_ok_iff.mpr ⟨w, ws, hw, hws, rfl⟩

/-- **WHAT WAS ENCODED HAS A CANONICAL FORM**, which is encoded to the same bytes and has its
    components in the order of the type. -/
theorem canonical_of_yields {t : Descriptor} {v : Value} {before after : Layout} {bytes : Bytes}
    (hvalid : t.Valid) (h : Yields (t.encodeIn v) before bytes after) :
    ∃ w, t.canonical v = .ok w ∧ Yields (t.encodeIn w) before bytes after ∧
      (t.isSequence = true → ∃ items, t.InOrder w items) := by
  induction t using Descriptor.inductOn generalizing v before after bytes with
  | step t ih =>
      cases ht : t.isSequence with
      | false => exact ⟨v, canonical_leaf ht v, h, fun h => by cases h⟩
      | true =>
          obtain ⟨items, parts, body, count, hitems, hparts, hbody, hcount, rfl⟩ :=
            (yields_encodeIn_sequence ht).mp h
          obtain ⟨ws, hws, hlen, hrow⟩ := hparts.canonical fun c hc _ _ _ _ hbytes => by
            have hinner := mem_inner_of_mem_rowTypes hc
            obtain ⟨w, hw, hbytes, -⟩ := ih c hinner (hvalid.inside hinner) hbytes
            exact ⟨w, hw, hbytes⟩
          obtain ⟨w, hw, horder⟩ := canonical_of_rowItems ht hvalid.here.names hitems hws hlen
          rcases horder with horder | horder
          · rw [← hlen] at hcount hrow
            exact ⟨w, hw, (yields_encodeIn_sequence ht).mpr
              ⟨ws, parts, body, count, horder.rowItems, hrow, hbody, hcount, rfl⟩,
              fun _ => ⟨ws, horder⟩⟩
          · exact ⟨w, hw, (yields_encodeIn_sequence ht).mpr
              ⟨items, parts, body, count, horder.rowItems, hparts, hbody, hcount, rfl⟩,
              fun _ => ⟨items, horder⟩⟩

/-! ## Canonical forms of canonical forms -/

/-- A sequence of another variant than the one that decoding produces keeps its variant. -/
theorem variantHere_of_canonical {t : Descriptor} {v w : Value} {items : List Value}
    (ht : t.isSequence = true) (hitems : t.rowItems v = .ok items) (hw : t.canonical v = .ok w)
    (hvariant : t.VariantHere w) : t.VariantHere v := by
  cases t with
  | staticArray t n =>
      obtain ⟨hv, -⟩ := checked_eq_ok_iff.mp hitems
      cases v with
      | list xs => trivial
      | _ => cases hv
  | dynamicArray t =>
      cases v with
      | list xs => trivial
      | _ => cases hitems
  | tuple ts =>
      obtain ⟨hv, -⟩ := checked_eq_ok_iff.mp hitems
      cases v with
      | tuple xs => trivial
      | list xs =>
          rw [canonical] at hw
          obtain ⟨ws, -, hw⟩ := bind_eq_ok_iff.mp hw
          obtain rfl := pure_eq_ok_iff.mp hw
          exact hvariant.elim
      | struct given =>
          -- a struct comes out as it went in, and is no tuple
          have hsame : (tuple ts).canonical (.struct given) = .ok (.struct given) := by
            rw [canonical]
            · rfl
            all_goals simp
          cases hsame.symm.trans hw
          exact hvariant.elim
      | _ => cases hv
  | struct name fs =>
      cases v with
      | struct given => trivial
      | tuple xs =>
          rw [canonical] at hw
          obtain ⟨ws, -, hw⟩ := bind_eq_ok_iff.mp hw
          obtain rfl := pure_eq_ok_iff.mp hw
          exact hvariant.elim
      | _ => cases hitems
  | _ => cases ht

/-- The canonical components of a row stay as they are. -/
theorem RowYields.canonical_again {ts : List Descriptor} {items ws : List Value}
    {before after : Layout} {parts : List Part}
    (hagain : ∀ t ∈ ts, ∀ {v w before after bytes}, Yields (t.encodeIn v) before bytes after →
      t.canonical v = .ok w → t.HasVariants w → t.canonical w = .ok w)
    (h : RowYields ts items before parts after) (hws : canonicalRow ts items = .ok ws)
    (hvariants : ∀ c ∈ ts.zip ws, c.1.HasVariants c.2) :
    canonicalRow ts ws = .ok ws := by
  induction h generalizing ws with
  | nil =>
      rw [canonicalRow_nil] at hws
      cases hws
      exact canonicalRow_nil []
  | bit b _ ih =>
      rw [List.forall_mem_cons] at hagain
      obtain ⟨w, more, hw, hmore, rfl⟩ := canonicalRow_cons_eq_ok_iff.mp hws
      rw [List.zip_cons_cons, List.forall_mem_cons] at hvariants
      have hrest := ih hagain.2 hmore hvariants.2
      exact canonicalRow_cons_eq_ok_iff.mpr ⟨w, more, canonical_leaf rfl w, hrest, rfl⟩
  | whole _ hbytes _ ih =>
      rw [List.forall_mem_cons] at hagain
      obtain ⟨w, more, hw, hmore, rfl⟩ := canonicalRow_cons_eq_ok_iff.mp hws
      rw [List.zip_cons_cons, List.forall_mem_cons] at hvariants
      have hfirst := hagain.1 hbytes hw hvariants.1
      have hrest := ih hagain.2 hmore hvariants.2
      exact canonicalRow_cons_eq_ok_iff.mpr ⟨w, more, hfirst, hrest, rfl⟩

/-- **A CANONICAL FORM STAYS AS IT IS** when it has the variants that decoding produces. -/
theorem canonical_canonical {t : Descriptor} {v w : Value} {before after : Layout} {bytes : Bytes}
    (hvalid : t.Valid) (h : Yields (t.encodeIn v) before bytes after) (hw : t.canonical v = .ok w)
    (hvariants : t.HasVariants w) : t.canonical w = .ok w := by
  induction t using Descriptor.inductOn generalizing v w before after bytes with
  | step t ih =>
      cases ht : t.isSequence with
      | false => exact canonical_leaf ht w
      | true =>
          obtain ⟨items, parts, body, count, hitems, hparts, -⟩ :=
            (yields_encodeIn_sequence ht).mp h
          have hv := variantHere_of_canonical ht hitems hw hvariants.here
          obtain ⟨ws, hws, rfl⟩ := (canonical_sequence_eq_ok_iff ht hv hitems).mp hw
          obtain ⟨ws', hws', hlen, -⟩ := hparts.canonical fun c hc _ _ _ _ hbytes => by
            have hinner := mem_inner_of_mem_rowTypes hc
            obtain ⟨w, hw, hbytes, -⟩ := canonical_of_yields (hvalid.inside hinner) hbytes
            exact ⟨w, hw, hbytes⟩
          obtain rfl : ws = ws' := Except.ok.inj (hws.symm.trans hws')
          have htakes : t.TakesCount ws.length := hlen ▸ takesCount_of_rowItems hitems
          have hback := rowItems_rowValue ht hvalid.here.names htakes
          have hentries := entries_eq_zip hvariants.here hback
          have hagain := hparts.canonical_again (fun c hc _ _ _ _ _ => by
            have hinner := mem_inner_of_mem_rowTypes hc
            exact ih c hinner (hvalid.inside hinner)) hws fun c hc => by
              rw [← hlen, ← hentries] at hc
              exact hvariants.inside hc
          rw [← hlen] at hagain
          exact (canonical_sequence_eq_ok_iff ht hvariants.here hback).mpr ⟨ws, hagain, rfl⟩

end Descriptor

end AvmSandbox
