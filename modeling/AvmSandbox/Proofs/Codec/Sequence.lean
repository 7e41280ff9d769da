import AvmSandbox.Codec.Canonical
import AvmSandbox.Codec.Decode
import AvmSandbox.Proofs.Codec.Form
import AvmSandbox.Proofs.Codec.RowReading
import AvmSandbox.Proofs.Codec.Success

/-! # Sequences — arrays, tuples and structs as one

    The codec treats the four kinds of sequences one by one, but for each of
    them does the same: it takes the components of a value, goes over the row of
    their types, and puts a count in front if the length is free.

    * `rowTypes`, `rowItems`, `rowValue` and `rowCount` are what the kinds differ
      in;
    * `RowYields` says what is encoded for a row, one component after another;
    * `yields_encodeIn_sequence`, `decodeIn_sequence_eq_ok_iff` and
      `canonical_sequence_eq_ok_iff` say that the codec does the same with them. -/

namespace AvmSandbox

namespace Descriptor

open Encoding

/-! ## What the kinds of sequences differ in -/

/-- Arrays, tuples and structs. -/
def isSequence : Descriptor → Bool
  | staticArray _ _ | dynamicArray _ | tuple _ | struct _ _ => true
  | _ => false

/-- The types of a row of `count` components. -/
def rowTypes (count : Nat) : Descriptor → List Descriptor
  | staticArray t _ | dynamicArray t => List.replicate count t
  | tuple ts => ts
  | struct _ fs => fs.map Prod.snd
  | _ => []

/-- Whether a sequence may have `count` components. -/
def TakesCount (count : Nat) : Descriptor → Prop
  | staticArray _ n => count = n
  | tuple ts => count = ts.length
  | struct _ fs => count = fs.length
  | _ => True

/-- The components that are taken from a value. -/
def rowItems : Descriptor → Value → Result (List Value)
  | staticArray _ n, v => do
      let items ← v.arrayItems
      if items.length ≠ n then throw (.arityMismatch n items.length)
      return items
  | dynamicArray _, v => v.arrayItems
  | tuple ts, v => do
      let items ← v.elements
      if items.length ≠ ts.length then throw (.arityMismatch ts.length items.length)
      return items
  | struct _ fs, v => structItems fs v
  | _, _ => .ok []

/-- The value with the given components. -/
def rowValue (items : List Value) : Descriptor → Value
  | tuple _ => .tuple items
  | struct _ fs => .struct ((fs.map Prod.fst).zip items)
  | _ => .list items

/-- The bytes in front of a row of `count` components. -/
def rowCount (count : Nat) : Descriptor → Result Bytes
  | dynamicArray _ => twoBytes count
  | _ => .ok []

/-- The types of a row are inside the sequence. -/
theorem mem_inner_of_mem_rowTypes {t c : Descriptor} {count : Nat} (h : c ∈ t.rowTypes count) :
    c ∈ t.inner := by
  cases t with
  | staticArray t n => exact List.mem_singleton.mpr (List.eq_of_mem_replicate h)
  | dynamicArray t => exact List.mem_singleton.mpr (List.eq_of_mem_replicate h)
  | tuple ts => exact h
  | struct a fs => exact h
  | _ => cases h

/-- A sequence has as many types as it takes components. -/
theorem length_rowTypes {t : Descriptor} {count : Nat} (ht : t.isSequence = true)
    (h : t.TakesCount count) : (t.rowTypes count).length = count := by
  cases t with
  | staticArray t n => exact List.length_replicate
  | dynamicArray t => exact List.length_replicate
  | tuple ts => exact h.symm
  | struct a fs =>
      have hcount : count = fs.length := h
      rw [hcount]
      exact List.length_map _
  | _ => cases ht

/-! ## Components of values -/

/-- Components that are only taken in the right number. -/
theorem checked_eq_ok_iff {r : Result (List Value)} {n : Nat} {refuse : List Value → Fault}
    {items : List Value} :
    (do
      let xs ← r
      if xs.length ≠ n then throw (refuse xs)
      return xs : Result (List Value)) = .ok items ↔ r = .ok items ∧ items.length = n := by
  rw [bind_eq_ok_iff]
  constructor
  · rintro ⟨xs, hxs, h⟩
    by_cases hlen : xs.length = n
    · rw [if_neg (not_not.mpr hlen), pure_eq_ok_iff] at h
      subst h
      exact ⟨hxs, hlen⟩
    · rw [if_pos hlen] at h
      cases h
  · rintro ⟨hitems, hlen⟩
    refine ⟨items, hitems, ?_⟩
    rw [if_neg (not_not.mpr hlen), pure_eq_ok_iff]

/-- A sequence takes as many components as it may have. -/
theorem takesCount_of_rowItems {t : Descriptor} {v : Value} {items : List Value}
    (h : t.rowItems v = .ok items) : t.TakesCount items.length := by
  cases t with
  | staticArray t n => exact (checked_eq_ok_iff.mp h).2
  | tuple ts => exact (checked_eq_ok_iff.mp h).2
  | struct a fs =>
      rw [rowItems] at h
      cases v with
      | struct given => exact length_of_mapM h
      | tuple xs =>
          rw [structItems] at h
          split at h
          · next hlen =>
              cases h
              exact hlen
          · cases h
      | _ => cases h
  | _ => trivial

/-- A field is found when a value is given under its name. -/
theorem exists_named_iff {name : String} {given : List (String × Value)} :
    (∃ v, Value.named name given = .ok v) ↔ name ∈ given.map Prod.fst := by
  constructor
  · rintro ⟨v, h⟩
    rw [Value.named] at h
    split at h
    · next f hf =>
        have hname := List.find?_some hf
        rw [beq_iff_eq] at hname
        rw [← hname]
        exact List.mem_map_of_mem (List.mem_of_find?_eq_some hf)
    · cases h
  · intro h
    obtain ⟨f, hf, hname⟩ := List.mem_map.mp h
    have hsome : (given.find? fun g => g.1 == name).isSome = true := by
      rw [List.find?_isSome]
      exact ⟨f, hf, by simpa using hname⟩
    obtain ⟨g, hg⟩ := Option.isSome_iff_exists.mp hsome
    exact ⟨g.2, by rw [Value.named, hg]⟩

/-- A value of the right variant has the right arity when its components can be taken. -/
theorem arityHere_iff {t : Descriptor} {v : Value} (ht : t.isSequence = true)
    (hv : t.VariantHere v) : t.ArityHere v ↔ ∃ items, t.rowItems v = .ok items := by
  -- arrays and tuples check the number of their items
  have hcheck : ∀ (items : List Value) (n : Nat) (refuse : List Value → Fault),
      items.length = n ↔ ∃ items', (do
        let xs ← .ok items
        if xs.length ≠ n then throw (refuse xs)
        return xs : Result (List Value)) = .ok items' := by
    intro items n refuse
    constructor
    · intro h
      exact ⟨items, checked_eq_ok_iff.mpr ⟨rfl, h⟩⟩
    · rintro ⟨items', h⟩
      obtain ⟨hitems, hlen⟩ := checked_eq_ok_iff.mp h
      cases hitems
      exact hlen
  cases t with
  | staticArray t n =>
      cases v with
      | list items => exact hcheck items n _
      | _ => exact hv.elim
  | dynamicArray t =>
      cases v with
      | list items => exact iff_of_true trivial ⟨items, rfl⟩
      | _ => exact hv.elim
  | tuple ts =>
      cases v with
      | tuple items => exact hcheck items ts.length _
      | _ => exact hv.elim
  | struct a fs =>
      cases v with
      | struct given =>
          -- a struct looks up each of its fields by name
          show (∀ f ∈ fs, f.1 ∈ given.map Prod.fst) ↔
            ∃ items, (fs.mapM fun f => Value.named f.1 given) = .ok items
          induction fs with
          | nil => exact iff_of_true (by simp) ⟨[], rfl⟩
          | cons f fs ih =>
              rw [List.forall_mem_cons, ih rfl trivial, ← exists_named_iff]
              simp only [List.mapM_cons, bind_eq_ok_iff, pure_eq_ok_iff]
              constructor
              · rintro ⟨⟨v, hv⟩, items, hitems⟩
                exact ⟨_, v, hv, items, hitems, rfl⟩
              · rintro ⟨_, v, hv, items, hitems, -⟩
                exact ⟨⟨v, hv⟩, items, hitems⟩
      | _ => exact hv.elim
  | _ => cases ht

private theorem zip_replicate (t : Descriptor) (items : List Value) :
    (List.replicate items.length t).zip items = items.map fun v => (t, v) := by
  induction items with
  | nil => rfl
  | cons v items ih => exact congrArg ((t, v) :: ·) ih

/-- The entries of a value are its components with the types of their row. -/
theorem entries_eq_zip {t : Descriptor} {v : Value} {items : List Value} (hv : t.VariantHere v)
    (h : t.rowItems v = .ok items) : t.entries v = (t.rowTypes items.length).zip items := by
  cases t with
  | staticArray t n =>
      cases v with
      | list xs =>
          obtain ⟨hxs, -⟩ := checked_eq_ok_iff.mp h
          cases hxs
          exact (zip_replicate t _).symm
      | _ => exact hv.elim
  | dynamicArray t =>
      cases v with
      | list xs =>
          cases h
          exact (zip_replicate t _).symm
      | _ => exact hv.elim
  | tuple ts =>
      cases v with
      | tuple xs =>
          obtain ⟨hxs, -⟩ := checked_eq_ok_iff.mp h
          cases hxs
          rfl
      | _ => exact hv.elim
  | struct a fs =>
      cases v with
      | struct given =>
          have h : (fs.mapM fun f => Value.named f.1 given) = .ok items := h
          -- every field is found, so none is left out
          show (fs.filterMap fun f => (Value.named f.1 given).toOption.map fun v => (f.2, v))
            = (fs.map Prod.snd).zip items
          induction fs generalizing items with
          | nil => simp
          | cons f fs ih =>
              simp only [List.mapM_cons, bind_eq_ok_iff, pure_eq_ok_iff] at h
              obtain ⟨v, hv, more, hmore, rfl⟩ := h
              rw [List.filterMap_cons, hv]
              exact congrArg ((f.2, v) :: ·) (ih trivial hmore hmore)
      | _ => exact hv.elim
  | _ => cases v <;> simp [entries, rowTypes]

/-- The value of a row has the variant of its type. -/
theorem variantHere_rowValue {t : Descriptor} (ht : t.isSequence = true) (items : List Value) :
    t.VariantHere (t.rowValue items) := by
  cases t with
  | staticArray _ _ | dynamicArray _ | tuple _ | struct _ _ => trivial
  | _ => cases ht

/-- Fields put in order under different names are found in that order. -/
private theorem mapM_named_zip {fs : List (String × Descriptor)} {items : List Value}
    (hnames : (fs.map Prod.fst).Nodup) (hlen : items.length = fs.length) :
    (fs.mapM fun f => Value.named f.1 ((fs.map Prod.fst).zip items)) = .ok items := by
  -- the names before those looked for do not matter
  have hskip : ∀ (before : List (String × Value)),
      (∀ f ∈ fs, f.1 ∉ before.map Prod.fst) →
      (fs.mapM fun f => Value.named f.1 (before ++ (fs.map Prod.fst).zip items)) = .ok items := by
    induction fs generalizing items with
    | nil =>
        intro before _
        rw [List.length_nil, List.length_eq_zero_iff] at hlen
        rw [hlen]
        rfl
    | cons f fs ih =>
        intro before hbefore
        cases items with
        | nil => cases hlen
        | cons v items =>
            rw [List.map_cons, List.nodup_cons] at hnames
            rw [List.forall_mem_cons] at hbefore
            have hfound : Value.named f.1 (before ++ (f.1, v) :: (fs.map Prod.fst).zip items)
                = .ok v := by
              have hnone : before.find? (fun g => g.1 == f.1) = none := by
                rw [List.find?_eq_none]
                intro g hg hname
                rw [beq_iff_eq] at hname
                exact hbefore.1 (hname ▸ List.mem_map_of_mem hg)
              rw [Value.named, List.find?_append, hnone]
              simp
            have hrest := ih hnames.2 (by simpa using hlen) (before ++ [(f.1, v)]) (by
              intro g hg hmem
              rw [List.map_append, List.mem_append] at hmem
              rcases hmem with hmem | hmem
              · exact hbefore.2 g hg hmem
              · have hname : g.1 = f.1 := by simpa using hmem
                exact hnames.1 (hname ▸ List.mem_map_of_mem hg))
            rw [List.append_assoc] at hrest
            rw [List.mapM_cons, List.map_cons, List.zip_cons_cons, hfound]
            simp only [bind_eq_ok_iff, pure_eq_ok_iff]
            exact ⟨v, rfl, items, hrest, rfl⟩
  exact hskip [] (by simp)

/-- The components put into a value can be taken from it. -/
theorem rowItems_rowValue {t : Descriptor} {items : List Value} (ht : t.isSequence = true)
    (hnames : t.NamesDistinct) (hcount : t.TakesCount items.length) :
    t.rowItems (t.rowValue items) = .ok items := by
  cases t with
  | staticArray t n => exact checked_eq_ok_iff.mpr ⟨rfl, hcount⟩
  | dynamicArray t => rfl
  | tuple ts => exact checked_eq_ok_iff.mpr ⟨rfl, hcount⟩
  | struct a fs => exact mapM_named_zip hnames hcount
  | _ => cases ht

/-! ## Encoding -/

/-- Fields are encoded as a row of their types. -/
theorem encodeFields_eq (fs : List (String × Descriptor)) (items : List Value) :
    encodeFields fs items = encodeRow (fs.map Prod.snd) items := by
  induction fs generalizing items with
  | nil => cases items <;> rw [encodeFields] <;> simp [encodeRow]
  | cons f fs ih =>
      obtain ⟨name, t⟩ := f
      cases items with
      | nil => rw [encodeFields, List.map_cons, encodeRow] <;> simp
      | cons v items => rw [encodeFields, List.map_cons, encodeRow, ih]

/-- The elements of an array are encoded as a row of one type. -/
theorem encodeRow_replicate (t : Descriptor) (items : List Value) :
    encodeRow (List.replicate items.length t) items = items.mapM (partOf t (encodeIn t)) := by
  induction items with
  | nil => rw [List.length_nil, List.replicate_zero, encodeRow, List.mapM_nil]; simp
  | cons v items ih =>
      rw [List.length_cons, List.replicate_succ, encodeRow, List.mapM_cons, ih]

theorem eq_bool_of_isBool {t : Descriptor} (hb : t.isBool = true) : t = bool := by
  cases t with
  | bool => rfl
  | _ => cases hb

/-- The part of a component that is not packed with its neighbours. -/
def wholePart (t : Descriptor) (bytes : Bytes) : Part :=
  if t.isDynamic then .varying bytes else .fixed bytes

theorem wholePart_varying {t : Descriptor} (hd : t.isDynamic = true) (bytes : Bytes) :
    t.wholePart bytes = .varying bytes := if_pos hd

theorem wholePart_fixed {t : Descriptor} (hd : t.isDynamic = false) (bytes : Bytes) :
    t.wholePart bytes = .fixed bytes := by
  simp [wholePart, hd]

section components

variable {t : Descriptor} {v : Value} {before after : Layout} {p : Part}

/-- A boolean is a bit of a row. -/
private theorem yields_partOf_bool (hb : t.isBool = true) :
    Yields (partOf t (encodeIn t) v) before p after ↔
      ∃ b, v = .bool b ∧ p = .bit b ∧ before = after := by
  rw [partOf, if_pos hb, yields_lift_bind]
  simp only [yields_pure]
  constructor
  · rintro ⟨b, hread, rfl, rfl⟩
    cases v with
    | bool b' => exact ⟨b', rfl, by rw [show b' = b from Except.ok.inj hread], rfl⟩
    | _ => cases hread
  · rintro ⟨b, rfl, rfl, rfl⟩
    exact ⟨b, rfl, rfl, rfl⟩

/-- Everything else is encoded by itself. -/
private theorem yields_partOf_whole (hb : t.isBool = false) :
    Yields (partOf t (encodeIn t) v) before p after ↔
      ∃ bytes, p = t.wholePart bytes ∧ Yields (t.encodeIn v) before bytes after := by
  rw [partOf]
  simp only [hb, Bool.false_eq_true, if_false, yields_bind, yields_pure]
  constructor
  · rintro ⟨bytes, _, hbytes, rfl, rfl⟩
    exact ⟨bytes, rfl, hbytes⟩
  · rintro ⟨bytes, rfl, hbytes⟩
    exact ⟨bytes, after, hbytes, rfl, rfl⟩

end components

/-- What is encoded for a row, component by component. -/
inductive RowYields : List Descriptor → List Value → Layout → List Part → Layout → Prop where
  | nil {layout : Layout} : RowYields [] [] layout [] layout
  | bit {ts : List Descriptor} {items : List Value} {before after : Layout} {parts : List Part}
      (b : Bool) : RowYields ts items before parts after →
        RowYields (bool :: ts) (.bool b :: items) before (.bit b :: parts) after
  | whole {t : Descriptor} {ts : List Descriptor} {v : Value} {items : List Value}
      {before middle after : Layout} {bytes : Bytes} {parts : List Part} : t.isBool = false →
      Yields (t.encodeIn v) before bytes middle → RowYields ts items middle parts after →
        RowYields (t :: ts) (v :: items) before (t.wholePart bytes :: parts) after

/-- **A ROW IS ENCODED** component by component, each within the layout that the ones before have
    left. -/
theorem yields_encodeRow_iff {ts : List Descriptor} {items : List Value} {before after : Layout}
    {parts : List Part} (hlen : items.length = ts.length) :
    Yields (encodeRow ts items) before parts after ↔ RowYields ts items before parts after := by
  induction ts generalizing items before parts with
  | nil =>
      obtain rfl := List.length_eq_zero_iff.mp hlen
      rw [encodeRow, yields_pure]
      · constructor
        · rintro ⟨rfl, rfl⟩
          exact .nil
        · intro h
          cases h
          exact ⟨rfl, rfl⟩
      · simp
  | cons t ts ih =>
      cases items with
      | nil => cases hlen
      | cons v items =>
          have hrest := Nat.succ.inj hlen
          rw [encodeRow]
          simp only [yields_bind, yields_pure]
          constructor
          · rintro ⟨p, middle, hp, more, _, hmore, rfl, rfl⟩
            have hrow := (ih hrest).mp hmore
            cases hb : t.isBool with
            | true =>
                obtain rfl := eq_bool_of_isBool hb
                -- a bool is a bit of the row and asks the layout for nothing
                obtain ⟨b, rfl, rfl, rfl⟩ := (yields_partOf_bool hb).mp hp
                exact .bit b hrow
            | false =>
                obtain ⟨bytes, rfl, hbytes⟩ := (yields_partOf_whole hb).mp hp
                exact .whole hb hbytes hrow
          · intro h
            cases h with
            | bit b h =>
                exact ⟨_, before, (yields_partOf_bool rfl).mpr ⟨b, rfl, rfl, rfl⟩, _, after,
                  (ih hrest).mpr h, rfl, rfl⟩
            | whole hb hbytes h =>
                exact ⟨_, _, (yields_partOf_whole hb).mpr ⟨_, rfl, hbytes⟩, _, after,
                  (ih hrest).mpr h, rfl, rfl⟩

/-- A sequence is the row of its components, laid out behind their number. -/
private theorem yields_encodeIn_row {t : Descriptor} {v : Value} {before after : Layout}
    {bytes : Bytes} (ht : t.isSequence = true) :
    Yields (t.encodeIn v) before bytes after ↔
      ∃ items parts body count, t.rowItems v = .ok items ∧
        Yields (encodeRow (t.rowTypes items.length) items) before parts after ∧
        assemble parts = .ok body ∧ t.rowCount items.length = .ok count ∧
        bytes = count ++ body := by
  cases t with
  | staticArray t n =>
      rw [encodeIn]
      simp only [yields_bind, yields_lift, yields_unless, ← encodeRow_replicate]
      constructor
      · rintro ⟨items, _, ⟨hitems, rfl⟩, hlen, parts, middle, hparts, hbody, rfl⟩
        exact ⟨items, parts, bytes, [], checked_eq_ok_iff.mpr ⟨hitems, not_not.mp hlen⟩, hparts,
          hbody, rfl, rfl⟩
      · rintro ⟨items, parts, body, count, hchecked, hparts, hbody, hcount, rfl⟩
        obtain ⟨hitems, hlen⟩ := checked_eq_ok_iff.mp hchecked
        cases hcount
        exact ⟨items, before, ⟨hitems, rfl⟩, not_not.mpr hlen, parts, after, hparts, hbody, rfl⟩
  | dynamicArray t =>
      rw [encodeIn]
      simp only [yields_bind, yields_lift, yields_pure, ← encodeRow_replicate]
      constructor
      · rintro ⟨items, _, ⟨hitems, rfl⟩, parts, middle, hparts, body, _, ⟨hbody, rfl⟩, count, _,
          ⟨hcount, rfl⟩, rfl, rfl⟩
        exact ⟨items, parts, body, count, hitems, hparts, hbody, hcount, rfl⟩
      · rintro ⟨items, parts, body, count, hitems, hparts, hbody, hcount, rfl⟩
        exact ⟨items, before, ⟨hitems, rfl⟩, parts, after, hparts, body, after, ⟨hbody, rfl⟩,
          count, after, ⟨hcount, rfl⟩, rfl, rfl⟩
  | tuple ts =>
      rw [encodeIn]
      simp only [yields_bind, yields_lift, yields_unless]
      constructor
      · rintro ⟨items, _, ⟨hitems, rfl⟩, hlen, parts, middle, hparts, hbody, rfl⟩
        exact ⟨items, parts, bytes, [], checked_eq_ok_iff.mpr ⟨hitems, not_not.mp hlen⟩, hparts,
          hbody, rfl, rfl⟩
      · rintro ⟨items, parts, body, count, hchecked, hparts, hbody, hcount, rfl⟩
        obtain ⟨hitems, hlen⟩ := checked_eq_ok_iff.mp hchecked
        cases hcount
        exact ⟨items, before, ⟨hitems, rfl⟩, not_not.mpr hlen, parts, after, hparts, hbody, rfl⟩
  | struct a fs =>
      rw [encodeIn]
      simp only [yields_bind, yields_lift, encodeFields_eq]
      constructor
      · rintro ⟨items, _, ⟨hitems, rfl⟩, parts, middle, hparts, hbody, rfl⟩
        exact ⟨items, parts, bytes, [], hitems, hparts, hbody, rfl, rfl⟩
      · rintro ⟨items, parts, body, count, hitems, hparts, hbody, hcount, rfl⟩
        cases hcount
        exact ⟨items, before, ⟨hitems, rfl⟩, parts, after, hparts, hbody, rfl⟩
  | _ => cases ht

/-- **SEQUENCES ENCODE AS ROWS**, behind the count of their components if the type leaves it
    open. -/
theorem yields_encodeIn_sequence {t : Descriptor} {v : Value} {before after : Layout}
    {bytes : Bytes} (ht : t.isSequence = true) :
    Yields (t.encodeIn v) before bytes after ↔
      ∃ items parts body count, t.rowItems v = .ok items ∧
        RowYields (t.rowTypes items.length) items before parts after ∧
        assemble parts = .ok body ∧ t.rowCount items.length = .ok count ∧
        bytes = count ++ body := by
  have hrow : ∀ {items parts}, t.rowItems v = .ok items →
      (Yields (encodeRow (t.rowTypes items.length) items) before parts after ↔
        RowYields (t.rowTypes items.length) items before parts after) := fun hitems =>
    yields_encodeRow_iff (length_rowTypes ht (takesCount_of_rowItems hitems)).symm
  rw [yields_encodeIn_row ht]
  constructor
  · rintro ⟨items, parts, body, count, hitems, hparts, hrest⟩
    exact ⟨items, parts, body, count, hitems, (hrow hitems).mp hparts, hrest⟩
  · rintro ⟨items, parts, body, count, hitems, hparts, hrest⟩
    exact ⟨items, parts, body, count, hitems, (hrow hitems).mpr hparts, hrest⟩

/-! ## Canonical values -/

theorem canonicalRow_nil (items : List Value) : canonicalRow [] items = .ok [] := by
  rw [canonicalRow]
  · rfl
  · simp

/-- The elements of an array are brought to canonical form one by one. -/
theorem canonicalRow_replicate (t : Descriptor) (items : List Value) :
    canonicalRow (List.replicate items.length t) items = items.mapM (canonical t) := by
  induction items with
  | nil => rw [List.length_nil, List.replicate_zero, canonicalRow_nil, List.mapM_nil]; rfl
  | cons v items ih =>
      rw [List.length_cons, List.replicate_succ, canonicalRow, List.mapM_cons, ih]

/-- Fields are brought to canonical form as a row, and keep their names. -/
theorem canonicalNamed_eq_ok_iff {fs : List (String × Descriptor)} {items : List Value}
    {named : List (String × Value)} (hlen : items.length = fs.length) :
    canonicalNamed fs items = .ok named ↔
      ∃ ws, canonicalRow (fs.map Prod.snd) items = .ok ws ∧
        named = (fs.map Prod.fst).zip ws := by
  induction fs generalizing items named with
  | nil =>
      rw [List.length_nil, List.length_eq_zero_iff] at hlen
      subst hlen
      rw [canonicalNamed, List.map_nil, canonicalRow_nil]
      · exact ⟨fun h => ⟨[], rfl, (pure_eq_ok_iff.mp h).symm⟩, fun ⟨_, _, h⟩ => by rw [h]; rfl⟩
      · simp
  | cons f fs ih =>
      obtain ⟨name, t⟩ := f
      cases items with
      | nil => cases hlen
      | cons v items =>
          rw [canonicalNamed, List.map_cons, canonicalRow]
          simp only [bind_eq_ok_iff, pure_eq_ok_iff, ih (Nat.succ.inj hlen)]
          constructor
          · rintro ⟨w, hw, _, ⟨ws, hws, rfl⟩, rfl⟩
            exact ⟨w :: ws, ⟨w, hw, ws, hws, rfl⟩, rfl⟩
          · rintro ⟨_, ⟨w, hw, ws, hws, rfl⟩, rfl⟩
            exact ⟨w, hw, _, ⟨ws, hws, rfl⟩, rfl⟩

/-- A row is brought into canonical form component by component. -/
theorem canonicalRow_cons_eq_ok_iff {t : Descriptor} {ts : List Descriptor} {v : Value}
    {items ws : List Value} :
    canonicalRow (t :: ts) (v :: items) = .ok ws ↔
      ∃ w more, t.canonical v = .ok w ∧ canonicalRow ts items = .ok more ∧ ws = w :: more := by
  rw [canonicalRow]
  simp only [bind_eq_ok_iff, pure_eq_ok_iff]
  constructor
  · rintro ⟨w, hw, more, hmore, rfl⟩
    exact ⟨w, more, hw, hmore, rfl⟩
  · rintro ⟨w, more, hw, hmore, rfl⟩
    exact ⟨w, hw, more, hmore, rfl⟩

/-- The canonical form of a sequence has the canonical forms of its components, in the order of
    its type. -/
theorem canonical_sequence_eq_ok_iff {t : Descriptor} {v w : Value} {items : List Value}
    (ht : t.isSequence = true) (hv : t.VariantHere v) (hitems : t.rowItems v = .ok items) :
    t.canonical v = .ok w ↔
      ∃ ws, canonicalRow (t.rowTypes items.length) items = .ok ws ∧ w = t.rowValue ws := by
  have hvalue : ∀ (value : List Value → Value) (r : Result (List Value)),
      (do return value (← r) : Result Value) = .ok w ↔ ∃ ws, r = .ok ws ∧ w = value ws := by
    intro value r
    rw [bind_eq_ok_iff]
    simp only [pure_eq_ok_iff, eq_comm (a := w)]
  cases t with
  | staticArray t n =>
      cases v with
      | list xs =>
          obtain ⟨hxs, -⟩ := checked_eq_ok_iff.mp hitems
          cases hxs
          rw [canonical, hvalue, rowTypes, canonicalRow_replicate]
          rfl
      | _ => exact hv.elim
  | dynamicArray t =>
      cases v with
      | list xs =>
          cases hitems
          rw [canonical, hvalue, rowTypes, canonicalRow_replicate]
          rfl
      | _ => exact hv.elim
  | tuple ts =>
      cases v with
      | tuple xs =>
          obtain ⟨hxs, -⟩ := checked_eq_ok_iff.mp hitems
          cases hxs
          rw [canonical, hvalue]
          rfl
      | _ => exact hv.elim
  | struct a fs =>
      cases v with
      | struct given =>
          -- fields are matched by name and come out in the order of the type
          have hlen : items.length = fs.length := takesCount_of_rowItems hitems
          have hitems : structItems fs (.struct given) = .ok items := hitems
          rw [canonical, hitems]
          simp only [bind_eq_ok_iff, pure_eq_ok_iff]
          constructor
          · rintro ⟨xs, hxs, named, hnamed, rfl⟩
            cases hxs
            obtain ⟨ws, hws, rfl⟩ := (canonicalNamed_eq_ok_iff hlen).mp hnamed
            exact ⟨ws, hws, rfl⟩
          · rintro ⟨ws, hws, rfl⟩
            exact ⟨items, rfl, _, (canonicalNamed_eq_ok_iff hlen).mpr ⟨ws, hws, rfl⟩, rfl⟩
      | _ => exact hv.elim
  | _ => cases ht

/-! ## Decoding -/

/-- Fields are read as a row of their types. -/
theorem fieldSlots_eq (layout : Layout) (fs : List (String × Descriptor)) :
    fieldSlots layout fs = rowSlots layout (fs.map Prod.snd) := by
  induction fs with
  | nil => rw [fieldSlots, List.map_nil, rowSlots]
  | cons f fs ih =>
      obtain ⟨name, t⟩ := f
      rw [fieldSlots, List.map_cons, rowSlots, ih]

/-- The elements of an array are read alike. -/
theorem rowSlots_replicate (layout : Layout) (t : Descriptor) (n : Nat) :
    rowSlots layout (List.replicate n t)
      = List.replicate n (slotOf layout.isSome t (decodeIn layout t)) := by
  induction n with
  | zero => rw [List.replicate_zero, rowSlots, List.replicate_zero]
  | succ n ih => rw [List.replicate_succ, rowSlots, ih, List.replicate_succ]

/-- What is checked before a static array is read. -/
def GuardPasses : Descriptor → Bytes → Prop
  | staticArray t n, bytes => n ≤ 8 * Limits.box ∧ t.leastRow n ≤ bytes.length
  | _, _ => True

/-- **SEQUENCES DECODE AS ROWS**, behind the count of their components if the type leaves it
    open. -/
theorem decodeIn_sequence_eq_ok_iff {t : Descriptor} {layout : Layout} {bytes : Bytes}
    {w : Value} (ht : t.isSequence = true) :
    t.decodeIn layout bytes = .ok w ↔
      ∃ n count body items, t.TakesCount n ∧ t.rowCount n = .ok count ∧ bytes = count ++ body ∧
        t.GuardPasses bytes ∧
        readRow t.refusal body (rowSlots layout (t.rowTypes n)) = .ok items ∧
        w = t.rowValue items := by
  cases t with
  | staticArray t n =>
      -- the guard is the length check, turned around
      have hguard : (n > 8 * Limits.box ∨ t.leastRow n > bytes.length) ↔
          ¬(staticArray t n).GuardPasses bytes := by
        show _ ↔ ¬(n ≤ 8 * Limits.box ∧ t.leastRow n ≤ bytes.length)
        omega
      rw [decodeIn]
      by_cases hbad : n > 8 * Limits.box ∨ t.leastRow n > bytes.length
      · constructor
        · intro h
          rw [if_pos hbad] at h
          cases h
        · rintro ⟨n', count, body, items, -, -, -, hok, -⟩
          exact absurd hok (hguard.mp hbad)
      · simp only [if_neg hbad, bind_eq_ok_iff, pure_eq_ok_iff, ← rowSlots_replicate]
        constructor
        · rintro ⟨items, hitems, rfl⟩
          exact ⟨n, [], bytes, items, rfl, rfl, rfl, not_not.mp fun h => hbad (hguard.mpr h),
            hitems, rfl⟩
        · rintro ⟨n', count, body, items, rfl, hcount, rfl, -, hitems, rfl⟩
          cases hcount
          exact ⟨items, hitems, rfl⟩
  | dynamicArray t =>
      constructor
      · intro h
        -- the count is the first two bytes, if there are so many
        rcases bytes with _ | ⟨hi, _ | ⟨lo, body⟩⟩
        · simp [decodeIn] at h
        · simp [decodeIn] at h
        · simp only [decodeIn, bind_eq_ok_iff, pure_eq_ok_iff, ← rowSlots_replicate] at h
          obtain ⟨items, hitems, rfl⟩ := h
          exact ⟨_, [hi, lo], body, items, trivial, twoBytes_eq_ok_iff.mpr (eq_ofNat_two rfl),
            rfl, trivial, hitems, rfl⟩
      -- a count that was written is the count that is read
      · rintro ⟨n, count, body, items, -, hcount, rfl, -, hitems, rfl⟩
        obtain ⟨hle, rfl⟩ := twoBytes_eq_ok_iff.mp hcount
        have hn := toNat_two hle
        simp only [Bytes.ofNat, List.nil_append, List.cons_append] at hn ⊢
        simp only [decodeIn, bind_eq_ok_iff, pure_eq_ok_iff, hn, ← rowSlots_replicate]
        exact ⟨items, hitems, rfl⟩
  | tuple ts =>
      rw [decodeIn]
      simp only [bind_eq_ok_iff, pure_eq_ok_iff]
      constructor
      · rintro ⟨items, hitems, rfl⟩
        exact ⟨ts.length, [], bytes, items, rfl, rfl, rfl, trivial, hitems, rfl⟩
      · rintro ⟨n, count, body, items, -, hcount, rfl, -, hitems, rfl⟩
        cases hcount
        exact ⟨items, hitems, rfl⟩
  | struct a fs =>
      rw [decodeIn]
      simp only [bind_eq_ok_iff, pure_eq_ok_iff, fieldSlots_eq]
      constructor
      · rintro ⟨items, hitems, rfl⟩
        exact ⟨fs.length, [], bytes, items, rfl, rfl, rfl, trivial, hitems, rfl⟩
      · rintro ⟨n, count, body, items, -, hcount, rfl, -, hitems, rfl⟩
        cases hcount
        exact ⟨items, hitems, rfl⟩
  | _ => cases ht

/-! ## Slots -/

/-- Components are packed, stand in the tail, or stand in the head. -/
theorem placement (t : Descriptor) :
    t = bool ∨ (t.isBool = false ∧ t.isDynamic = true) ∨
      (t.isBool = false ∧ t.isDynamic = false) := by
  cases hb : t.isBool with
  | true =>
      cases t with
      | bool => exact Or.inl rfl
      | _ => cases hb
  | false =>
      cases hd : t.isDynamic with
      | true => exact Or.inr (Or.inl ⟨rfl, rfl⟩)
      | false => exact Or.inr (Or.inr ⟨rfl, rfl⟩)

section slots

variable {t : Descriptor} {indexed : Bool} {decode : Bytes → Result Value}

/-- A dynamic component is read where its offset says. -/
theorem slotOf_varying (hb : t.isBool = false) (hd : t.isDynamic = true) :
    slotOf indexed t decode = .varying decode := by
  simp [slotOf, hb, hd]

/-- A static component is read from as many bytes as its type has. -/
theorem slotOf_fixed {n : Nat} (hb : t.isBool = false) (hd : t.isDynamic = false)
    (hn : t.length? indexed = some n) : slotOf indexed t decode = .fixed n decode := by
  simp [slotOf, hb, hd, hn]

/-- A static component without a length is refused. -/
theorem slotOf_refused (hb : t.isBool = false) (hd : t.isDynamic = false)
    (hn : t.length? indexed = none) :
    slotOf indexed t decode = .refused (t.refusal .unbounded) := by
  simp [slotOf, hb, hd, hn]

end slots

end Descriptor

end AvmSandbox
