import AvmSandbox.Proofs.Codec.RoundTrip

/-! # Layout — what the format asks of an encoding

    The layout of a value is given here by itself, with references by value and
    without regard to how the encoder goes about it: numbers are written with
    their most significant digits first, free lengths have a count of two bytes
    in front, and a sequence is a row of its components.

    * `layout` is the layout of a value and `layout_sequence` its form for
      sequences;
    * `Representable` values whose layout is not too long are encoded
      (`yields_layout`), and nothing but the layout is written
      (`eq_layout_of_yields`);
    * `encodeUpTo_eq_ok_iff_layout` puts both together. -/

namespace AvmSandbox

namespace Descriptor

open Encoding

/-- A component of a row, given the layout of its type. -/
def component (t : Descriptor) (layout : Value → List Octet) (v : Value) : Component :=
  match t, v with
  | bool, .bool b => .bit b
  | t, v => if t.isDynamic then .varying (layout v) else .fixed (layout v)

mutual

/-- The layout of a value of a type. -/
def layout : Descriptor → Value → List Octet
  | staticArray t _, .list items => rowOctets (items.map (component t (layout t)))
  | dynamicArray t, .list items =>
      solids (Bytes.ofNat 2 items.length) ++ rowOctets (items.map (component t (layout t)))
  | tuple ts, .tuple items => rowOctets (layoutRow ts items)
  | struct _ fs, .struct given => rowOctets (layoutFields given fs)
  | t, v => t.leafOctets v

/-- The components of a row of types. -/
def layoutRow : List Descriptor → List Value → List Component
  | t :: ts, v :: vs => component t (layout t) v :: layoutRow ts vs
  | _, _ => []

/-- The components of a struct, found by their names. -/
def layoutFields (given : List (String × Value)) : List (String × Descriptor) → List Component
  | [] => []
  | (name, t) :: fs =>
      match Value.named name given with
      | .ok v => component t (layout t) v :: layoutFields given fs
      | .error _ => layoutFields given fs

end

/-- The octets in front of a row. -/
def countOctets (count : Nat) : Descriptor → List Octet
  | dynamicArray _ => solids (Bytes.ofNat 2 count)
  | _ => []

/-- The components of a value. -/
def components (t : Descriptor) (v : Value) : List Component :=
  (t.entries v).map fun c => component c.1 (layout c.1) c.2

theorem layoutRow_eq (ts : List Descriptor) (items : List Value) :
    layoutRow ts items = (ts.zip items).map fun c => component c.1 (layout c.1) c.2 := by
  induction ts generalizing items with
  | nil => rw [layoutRow] <;> simp
  | cons t ts ih =>
      cases items with
      | nil => rw [layoutRow] <;> simp
      | cons v items => rw [layoutRow, ih, List.zip_cons_cons, List.map_cons]

theorem layoutFields_eq (given : List (String × Value)) (fs : List (String × Descriptor)) :
    layoutFields given fs
      = (fs.filterMap fun f => (Value.named f.1 given).toOption.map fun v => (f.2, v)).map
          fun c => component c.1 (layout c.1) c.2 := by
  induction fs with
  | nil => rw [layoutFields]; rfl
  | cons f fs ih =>
      obtain ⟨name, t⟩ := f
      rw [layoutFields]
      cases hv : Value.named name given with
      | ok v => simp [hv, ih, Except.toOption]
      | error e => simp [hv, ih, Except.toOption]

/-- The layout of a sequence is the row of its components, behind its count if the type leaves it
    open. -/
theorem layout_sequence {t : Descriptor} {v : Value} {items : List Value}
    (ht : t.isSequence = true) (hv : t.VariantHere v) (hitems : t.rowItems v = .ok items) :
    t.layout v = t.countOctets items.length ++ rowOctets (t.components v) := by
  cases t with
  | staticArray t n =>
      cases v with
      | list xs =>
          rw [layout, components, entries, List.map_map]
          rfl
      | _ => exact hv.elim
  | dynamicArray t =>
      cases v with
      | list xs =>
          cases hitems
          rw [layout, components, entries, List.map_map]
          rfl
      | _ => exact hv.elim
  | tuple ts =>
      cases v with
      | tuple xs => rw [layout, layoutRow_eq]; rfl
      | _ => exact hv.elim
  | struct a fs =>
      cases v with
      | struct given => rw [layout, layoutFields_eq]; rfl
      | _ => exact hv.elim
  | _ => cases ht

section component

variable {t : Descriptor} {l : Value → List Octet} {v : Value}

theorem component_varying (hb : t.isBool = false) (hd : t.isDynamic = true) :
    component t l v = .varying (l v) := by
  cases t with
  | bool => cases hb
  | _ => simp [component, hd]

theorem component_fixed (hb : t.isBool = false) (hd : t.isDynamic = false) :
    component t l v = .fixed (l v) := by
  cases t with
  | bool => cases hb
  | _ => simp [component, hd]

theorem part_component (hb : t.isBool = false) :
    (component t l v).part = t.wholePart (written (l v)) := by
  cases hd : t.isDynamic with
  | true => rw [component_varying hb hd, wholePart_varying hd, Component.part]
  | false => rw [component_fixed hb hd, wholePart_fixed hd, Component.part]

end component

theorem layout_leaf {t : Descriptor} (ht : t.isSequence = false) (v : Value) :
    t.layout v = t.leafOctets v := by
  cases t with
  | staticArray _ _ | dynamicArray _ | tuple _ | struct _ _ => cases ht
  | _ => rw [layout] <;> simp

/-! ## Nothing else is written -/

/-- What is written for a row of laid-out components. -/
theorem RowYields.parts_eq {ts : List Descriptor} {items : List Value} {before after : Layout}
    {parts : List Part}
    (hwritten : ∀ c ∈ ts.zip items, ∀ {bytes}, Yields (c.1.encodeIn c.2) none bytes none →
      bytes = written (c.1.layout c.2))
    (h : RowYields ts items before parts after) (hbefore : before = none) :
    parts = ((ts.zip items).map fun c => component c.1 (layout c.1) c.2).map Component.part := by
  induction h with
  | nil => rfl
  | bit b _ ih =>
      rw [List.zip_cons_cons, List.forall_mem_cons] at hwritten
      rw [List.zip_cons_cons, List.map_cons, List.map_cons, ih hwritten.2 hbefore]
      rfl
  | whole hb hbytes _ ih =>
      rw [List.zip_cons_cons, List.forall_mem_cons] at hwritten
      -- by value no component changes the layout, so all of them are written within the empty one
      subst hbefore
      cases grows_encodeIn hbytes
      rw [List.zip_cons_cons, List.map_cons, List.map_cons, ih hwritten.2 rfl,
        part_component hb, hwritten.1 hbytes]

theorem rowCount_eq_ok_iff {t : Descriptor} {count : Bytes} {v : Value}
    {items : List Value} (ht : t.isSequence = true) (hv : t.VariantHere v)
    (hitems : t.rowItems v = .ok items) :
    t.rowCount items.length = .ok count ↔
      t.FitsHere v ∧ count = written (t.countOctets items.length) := by
  cases t with
  | dynamicArray t =>
      cases v with
      | list xs =>
          cases hitems
          rw [countOctets, written_solids]
          exact twoBytes_eq_ok_iff
      | _ => exact hv.elim
  | staticArray _ _ | tuple _ | struct _ _ =>
      show Except.ok [] = Except.ok count ↔ True ∧ count = []
      simp [eq_comm]
  | _ => cases ht

/-- **NOTHING BUT THE LAYOUT IS WRITTEN.** -/
theorem eq_layout_of_yields {t : Descriptor} {v : Value} {bytes : Bytes} (hv : t.HasForm v)
    (h : Yields (t.encodeIn v) none bytes none) : bytes = written (t.layout v) := by
  induction t using Descriptor.inductOn generalizing v bytes with
  | step t ih =>
      cases ht : t.isSequence with
      | false =>
          rw [layout_leaf ht, written_leafOctets hv.here.1]
          exact bytes_of_leaf ht hv.here.1 hv.here.2 h
      | true =>
          obtain ⟨items, parts, body, count, hitems, hparts, hbody, hcount, rfl⟩ :=
            (yields_encodeIn_sequence ht).mp h
          have hentries := entries_eq_zip hv.here.1 hitems
          have heq := hparts.parts_eq (by
            intro c hc bytes hbytes
            rw [← hentries] at hc
            exact ih c.1 (mem_inner_of_mem_entries hc) (hv.inside hc) hbytes) rfl
          rw [heq, ← hentries] at hbody
          obtain ⟨-, rfl⟩ := assemble_eq_ok_iff.mp hbody
          obtain ⟨-, rfl⟩ := (rowCount_eq_ok_iff ht hv.here.1 hitems).mp hcount
          rw [layout_sequence ht hv.here.1 hitems, written_append]
          rfl

/-! ## Every layout that fits is written -/

/-- A leaf that fits its widths has numbers that do. -/
theorem fitsHere_of_leafFits {t : Descriptor} {v : Value} (ht : t.isSequence = false)
    (h : t.LeafFits v) : t.FitsHere v := by
  cases t with
  | uint bits | ufixed bits _ | byte =>
      cases v with
      | uint n => exact h
      | _ => trivial
  | staticArray _ _ | dynamicArray _ | tuple _ | struct _ _ => cases ht
  | _ => trivial

/-- Conversely the counts of a leaf fit if its bytes do. -/
theorem leafFits_of_fitsHere {t : Descriptor} {v : Value} (ht : t.isSequence = false)
    (h : t.FitsHere v) (hle : (t.leafBytes v).length ≤ Limits.twoByte) : t.LeafFits v := by
  have hcounted : ∀ {content : Bytes}, (counted content).length ≤ Limits.twoByte →
      content.length ≤ Limits.twoByte := by
    intro content hcontent
    rw [counted, List.length_append] at hcontent
    omega
  cases t with
  | uint bits | ufixed bits _ | byte =>
      cases v with
      | uint n => exact h
      | _ => trivial
  | string =>
      cases v with
      | str s => exact hcounted hle
      | _ => trivial
  | dynamicBytes =>
      cases v with
      | bytes content => exact hcounted hle
      | _ => trivial
  | staticArray _ _ | dynamicArray _ | tuple _ | struct _ _ => cases ht
  | _ => trivial

/-- By value, a leaf that fits is written. -/
theorem yields_leaf {t : Descriptor} {v : Value} (ht : t.isSequence = false)
    (hv : t.VariantHere v) (ha : t.ArityHere v) (hfits : t.LeafFits v) :
    Yields (t.encodeIn v) none (t.leafBytes v) none := by
  cases hr : t.isReference with
  | false => exact (yields_encodeIn_leaf ht hr hv ha).mpr ⟨hfits, rfl, rfl⟩
  | true =>
      rw [yields_encodeIn_reference hr hv, yields_reference]
      exact Or.inl ⟨rfl, rfl, rfl⟩

/-- Whatever is encoded has numbers and counts that fit. -/
theorem representable_of_yields {t : Descriptor} {v : Value} {before after : Layout}
    {bytes : Bytes} (hv : t.HasForm v) (h : Yields (t.encodeIn v) before bytes after) :
    t.Representable v := by
  induction t using Descriptor.inductOn generalizing v before after bytes with
  | step t ih =>
      cases ht : t.isSequence with
      | false =>
          refine everywhere_leaf ht ?_
          cases hr : t.isReference with
          | false =>
              have hleaf := (yields_encodeIn_leaf ht hr hv.here.1 hv.here.2).mp h
              exact fitsHere_of_leafFits ht hleaf.1
          | true =>
              cases t with
              | account | asset | application => trivial
              | _ => cases hr
      | true =>
          obtain ⟨items, parts, body, count, hitems, hparts, -, hcount, -⟩ :=
            (yields_encodeIn_sequence ht).mp h
          refine .intro ((rowCount_eq_ok_iff ht hv.here.1 hitems).mp hcount).1 ?_
          intro c hc
          have hmem : c ∈ (t.rowTypes items.length).zip items :=
            entries_eq_zip hv.here.1 hitems ▸ hc
          obtain ⟨before, bytes, after, hbytes⟩ := hparts.yields_of_mem hmem
          exact ih c.1 (mem_inner_of_mem_entries hc) (hv.inside hc) hbytes

/-- A row whose components are written as laid out. -/
theorem RowYields.of_layouts {ts : List Descriptor} {items : List Value}
    (hlen : items.length = ts.length) (hforms : ∀ c ∈ ts.zip items, c.1.HasForm c.2)
    (hyields : ∀ c ∈ ts.zip items,
      Yields (c.1.encodeIn c.2) none (written (c.1.layout c.2)) none) :
    RowYields ts items none
      (((ts.zip items).map fun c => component c.1 (layout c.1) c.2).map Component.part) none := by
  induction ts generalizing items with
  | nil =>
      obtain rfl := List.length_eq_zero_iff.mp hlen
      exact .nil
  | cons t ts ih =>
      cases items with
      | nil => cases hlen
      | cons v items =>
          rw [List.zip_cons_cons, List.forall_mem_cons] at hforms hyields
          have hrest := ih (Nat.succ.inj hlen) hforms.2 hyields.2
          rw [List.zip_cons_cons, List.map_cons, List.map_cons]
          cases hb : t.isBool with
          | true =>
              obtain rfl := eq_bool_of_isBool hb
              cases v with
              | bool b => exact .bit b hrest
              | _ => exact hforms.1.here.1.elim
          | false =>
              rw [part_component hb]
              exact .whole hb hyields.1 hrest

/-- The layout of an entry is not longer than the row it stands in, unless it is packed. -/
theorem length_layout_le {t : Descriptor} {v : Value} {c : Descriptor × Value}
    (hc : c ∈ t.entries v) (hb : c.1.isBool = false) :
    (c.1.layout c.2).length ≤ (rowOctets (t.components v)).length := by
  have hmem : component c.1 (layout c.1) c.2 ∈ t.components v :=
    List.mem_map_of_mem (f := fun c => component c.1 (layout c.1) c.2) hc
  cases hd : c.1.isDynamic with
  | true =>
      rw [component_varying hb hd] at hmem
      exact length_le_rowOctets (Or.inr hmem)
  | false =>
      rw [component_fixed hb hd] at hmem
      exact length_le_rowOctets (Or.inl hmem)

theorem length_layout_bool {t : Descriptor} {v : Value} (hv : t.HasForm v)
    (hb : t.isBool = true) : (t.layout v).length ≤ 1 := by
  cases t with
  | bool =>
      cases v with
      | bool b =>
          rw [layout_leaf rfl, leafOctets, length_runOctets, List.length_singleton]
      | _ => exact hv.here.1.elim
  | _ => cases hb

/-- **EVERY LAYOUT OF AT MOST 65535 BYTES IS WRITTEN.** -/
theorem yields_layout {t : Descriptor} {v : Value} (hv : t.HasForm v) (hfits : t.Representable v)
    (hle : (t.layout v).length ≤ Limits.twoByte) :
    Yields (t.encodeIn v) none (written (t.layout v)) none := by
  induction t using Descriptor.inductOn generalizing v with
  | step t ih =>
      cases ht : t.isSequence with
      | false =>
          rw [layout_leaf ht, ← length_written, written_leafOctets hv.here.1] at hle
          rw [layout_leaf ht, written_leafOctets hv.here.1]
          exact yields_leaf ht hv.here.1 hv.here.2 (leafFits_of_fitsHere ht hfits.here hle)
      | true =>
          obtain ⟨items, hitems⟩ := (arityHere_iff ht hv.here.1).mp hv.here.2
          have hentries := entries_eq_zip hv.here.1 hitems
          have hlen := (length_rowTypes ht (takesCount_of_rowItems hitems)).symm
          rw [layout_sequence ht hv.here.1 hitems, List.length_append] at hle
          -- offsets count from the start of the row, so the row alone bounds them
          have hoffsets : OffsetsFit (headLength (stretches (t.components v)))
              (stretches (t.components v)) := by
            refine offsetsFit_of_le ?_
            rw [← length_rowOf]
            exact Nat.le_trans (Nat.le_add_left _ _) hle
          have hparts : RowYields (t.rowTypes items.length) items none
              ((t.components v).map Component.part) none := by
            rw [components, hentries]
            refine .of_layouts hlen ?_ ?_
            · intro c hc
              exact hv.inside (hentries ▸ hc)
            · intro c hc
              have hc : c ∈ t.entries v := hentries ▸ hc
              refine ih c.1 (mem_inner_of_mem_entries hc) (hv.inside hc) (hfits.inside hc) ?_
              cases hb : c.1.isBool with
              | true => exact Nat.le_trans (length_layout_bool (hv.inside hc) hb) (by decide)
              | false => exact Nat.le_trans (length_layout_le hc hb) (by omega)
          rw [layout_sequence ht hv.here.1 hitems, written_append]
          exact (yields_encodeIn_sequence ht).mpr ⟨items, _, _, _, hitems, hparts,
            assemble_eq_ok_iff.mpr ⟨hoffsets, rfl⟩,
            (rowCount_eq_ok_iff ht hv.here.1 hitems).mpr ⟨hfits.here, rfl⟩, rfl⟩

/-! ## The encoder and the format -/

/-- What the format asks of the layout of a value by itself. -/
structure LaidOutHere (t : Descriptor) (v : Value) : Prop where
  /-- A leaf stands as its digits, or as its content behind its count. -/
  leaf : t.isSequence = false → t.layout v = t.leafOctets v
  /-- A sequence is a row of its entries, behind its count if the type leaves it open. -/
  sequence : t.isSequence = true → ∃ row,
    t.layout v = t.countOctets (t.entries v).length ++ row ∧ RowShape (t.components v) row

/-- The layout of a value is that of the format, at every depth. -/
theorem laidOut {t : Descriptor} {v : Value} (hv : t.HasForm v) : Everywhere LaidOutHere t v := by
  induction t using Descriptor.inductOn generalizing v with
  | step t ih =>
      refine .intro ⟨fun ht => layout_leaf ht v, fun ht => ?_⟩ ?_
      · obtain ⟨items, hitems⟩ := (arityHere_iff ht hv.here.1).mp hv.here.2
        have hlen := length_rowTypes ht (takesCount_of_rowItems hitems)
        refine ⟨rowOctets (t.components v), ?_, rowShape _⟩
        rw [layout_sequence ht hv.here.1 hitems, entries_eq_zip hv.here.1 hitems,
          List.length_zip, hlen, Nat.min_self]
      · intro c hc
        exact ih c.1 (mem_inner_of_mem_entries hc) (hv.inside hc)

/-- **THE ENCODER WRITES THE LAYOUT OF THE FORMAT**, whatever the reader's form and arity of the
    value, and refuses it only when a number or a count does not fit or the layout is too long. -/
theorem encodeUpTo_eq_ok_iff_layout {t : Descriptor} {max : Nat} {v : Value} {bytes : Bytes}
    (hv : t.HasForm v) (hmax : max ≤ Limits.twoByte) :
    (t.encodeUpTo max v = .ok bytes ↔
      t.Representable v ∧ (t.layout v).length ≤ max ∧ bytes = written (t.layout v)) ∧
    Everywhere LaidOutHere t v := by
  refine ⟨?_, laidOut hv⟩
  rw [encodeUpTo_eq_ok_iff]
  constructor
  · rintro ⟨hyields, hle⟩
    obtain rfl := eq_layout_of_yields hv hyields
    rw [length_written] at hle
    exact ⟨representable_of_yields hv hyields, hle, rfl⟩
  · rintro ⟨hfits, hle, rfl⟩
    exact ⟨yields_layout hv hfits (Nat.le_trans hle hmax), by rwa [length_written]⟩

/-- Nine booleans take two bytes, and the string behind them is pointed to. -/
theorem encodeUpTo_eq_ok_iff_layout_packed :
    let entry := tuple [staticArray bool 9, string]
    let given := Value.tuple [.list (List.replicate 9 (.bool true)), .str "ok"]
    let bytes : Bytes := [0xff, 0x80, 0, 4, 0, 2, 0x6f, 0x6b]
    entry.HasForm given ∧ 8 ≤ Limits.twoByte ∧ entry.encodeUpTo 8 given = .ok bytes ∧
      (entry.encodeUpTo 8 given = .ok bytes ↔ entry.Representable given ∧
        (entry.layout given).length ≤ 8 ∧ bytes = written (entry.layout given)) ∧
      Everywhere LaidOutHere entry given := by
  intro entry given bytes
  have hform : entry.HasForm given := by
    refine .intro ⟨trivial, rfl⟩ ?_
    intro c hc
    rcases List.mem_pair.mp hc with rfl | rfl
    · refine .intro ⟨trivial, rfl⟩ ?_
      intro c hc
      obtain ⟨b, hb, rfl⟩ := List.mem_map.mp hc
      obtain rfl := List.eq_of_mem_replicate hb
      exact everywhere_leaf rfl ⟨trivial, trivial⟩
    · exact everywhere_leaf rfl ⟨trivial, trivial⟩
  have hencode : entry.encodeUpTo 8 given = .ok bytes := by decide +kernel
  exact ⟨hform, by decide, hencode, encodeUpTo_eq_ok_iff_layout hform (by decide)⟩

end Descriptor

end AvmSandbox
