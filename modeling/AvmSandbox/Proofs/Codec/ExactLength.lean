import AvmSandbox.Proofs.Codec.Extent
import AvmSandbox.Proofs.Descriptor.Spelling

/-! # Exact lengths — the number of bytes, however many

    The length of a type is absent where an array does not fit in 64 bits.  The
    number of its bytes is not: every static type has one, and whatever is
    encoded as the type takes it.

    * `exactLength` is that number;
    * `exactLength_of_length?`: a length is the number of bytes;
    * `exactLength_eq_none_iff`: only dynamic types have none;
    * `exactLength_of_yields`: encodings take it. -/

namespace AvmSandbox

namespace Descriptor

open Encoding

variable {t c : Descriptor} {ts : List Descriptor} {indexed : Bool} {n run : Nat}

/-! ## Where a length comes from -/

/-- A type made of components is as long as their row. -/
theorem length?_of_components (h : t.components? = some ts) :
    t.length? indexed = rowLength 0 (widths indexed ts) := by
  cases t with
  | tuple us =>
      cases h
      rw [length?]
  | struct a fs =>
      cases h
      rw [length?, fieldWidths_eq]
  | _ => cases h

theorem isDynamic_of_components (h : t.components? = some ts) : t.isDynamic = anyDynamic ts := by
  cases t with
  | tuple us =>
      cases h
      rw [isDynamic]
  | struct a fs =>
      cases h
      rw [isDynamic, anyFieldDynamic_eq]
  | _ => cases h

/-- A type whose length does not depend on other ones: all but arrays of whole components, tuples
    and structs. -/
def isMeasured : Descriptor → Bool
  | staticArray c _ => c.isBool
  | tuple _ | struct _ _ => false
  | _ => true

/-- The length of a type is its own, that of an array, or that of a row. -/
theorem cases_of_length (t : Descriptor) :
    t.isMeasured = true ∨ (∃ c n, t = staticArray c n ∧ c.isBool = false) ∨
      ∃ ts, t.components? = some ts := by
  cases t with
  | staticArray c n =>
      cases hb : c.isBool with
      | true => exact .inl hb
      | false => exact .inr (.inl ⟨c, n, rfl, hb⟩)
  | tuple ts => exact .inr (.inr ⟨ts, rfl⟩)
  | struct a fs => exact .inr (.inr ⟨_, rfl⟩)
  | _ => exact .inl rfl

/-! ## The number of bytes -/

mutual

/-- The number of bytes of encodings of a static type, however many; `indexed` says that
    references are laid out as one-byte indexes. -/
def exactLength (indexed : Bool) : Descriptor → Option Nat
  | staticArray t n =>
      if t.isBool then some ((n + 7) / 8) else (exactLength indexed t).map fun w => w * n
  | tuple ts => rowLength 0 (exactWidths indexed ts)
  | struct _ fs => rowLength 0 (exactFieldWidths indexed fs)
  | t => t.length? indexed

/-- The widths of a row of types. -/
def exactWidths (indexed : Bool) : List Descriptor → List Width
  | [] => []
  | t :: ts => widthOf t (exactLength indexed t) :: exactWidths indexed ts

/-- The widths of a row of named types. -/
def exactFieldWidths (indexed : Bool) : List (String × Descriptor) → List Width
  | [] => []
  | (_, t) :: fs => widthOf t (exactLength indexed t) :: exactFieldWidths indexed fs

end

theorem exactFieldWidths_eq (indexed : Bool) (fs : List (String × Descriptor)) :
    exactFieldWidths indexed fs = exactWidths indexed (fs.map Prod.snd) := by
  induction fs with
  | nil => rw [exactFieldWidths, List.map_nil, exactWidths]
  | cons f fs ih =>
      obtain ⟨name, t⟩ := f
      rw [exactFieldWidths, List.map_cons, exactWidths, ih]

theorem exactLength_of_components (h : t.components? = some ts) :
    t.exactLength indexed = rowLength 0 (exactWidths indexed ts) := by
  cases t with
  | tuple us =>
      cases h
      rw [exactLength]
  | struct a fs =>
      cases h
      rw [exactLength, exactFieldWidths_eq]
  | _ => cases h

/-- A row whose widths are known has the same ones as numbers of bytes. -/
private theorem rowLength_exactWidths (hts : ∀ t ∈ ts, ∀ {n}, t.length? indexed = some n →
      t.exactLength indexed = some n)
    (hn : rowLength run (widths indexed ts) = some n) :
    rowLength run (exactWidths indexed ts) = some n := by
  induction ts generalizing run n with
  | nil => exact hn
  | cons t ts ih =>
      rw [List.forall_mem_cons] at hts
      rw [widths] at hn
      rw [exactWidths]
      cases hb : t.isBool with
      | true =>
          rw [widthOf_of_isBool hb, rowLength] at hn ⊢
          obtain ⟨m, hm, rfl⟩ := Option.map_eq_some_iff.mp hn
          rw [ih hts.2 hm, Option.map_some]
      | false =>
          cases ht : t.length? indexed with
          | none =>
              rw [ht, widthOf_none hb] at hn
              cases hn
          | some w =>
              rw [ht, widthOf_some hb, rowLength] at hn
              obtain ⟨m, hm, rfl⟩ := Option.map_eq_some_iff.mp hn
              rw [hts.1 ht, widthOf_some hb, rowLength, ih hts.2 hm, Option.map_some]

/-- Where the length is measured outright, the exact length is the same. -/
theorem exactLength_of_isMeasured (ht : t.isMeasured = true) :
    t.exactLength indexed = t.length? indexed := by
  cases t with
  | staticArray c n =>
      have hb : c.isBool = true := ht
      rw [exactLength, length?, if_pos hb, if_pos hb]
  | tuple _ | struct _ _ => cases ht
  | _ => rw [exactLength] <;> simp

/-- **A LENGTH IS THE NUMBER OF BYTES.** -/
theorem exactLength_of_length? (hn : t.length? indexed = some n) :
    t.exactLength indexed = some n := by
  induction t using Descriptor.inductOn generalizing n with
  | step t ih =>
      obtain ht | ⟨c, count, rfl, hb⟩ | ⟨ts, hts⟩ := cases_of_length t
      · rw [exactLength_of_isMeasured ht, hn]
      · rw [length?, if_neg (by simp [hb])] at hn
        obtain ⟨w, hw, hn⟩ := Option.bind_eq_some_iff.mp hn
        split at hn
        · rw [exactLength, if_neg (by simp [hb]), ih c (List.mem_singleton_self c) hw,
            Option.map_some, hn]
        · cases hn
      · rw [length?_of_components hts] at hn
        rw [exactLength_of_components hts]
        exact rowLength_exactWidths (fun c hc _ => ih c (inner_of_components hts ▸ hc)) hn

/-- Only a width that is free leaves a row without a length. -/
theorem rowLength_eq_none_iff {ws : List Width} : rowLength run ws = none ↔ .free ∈ ws := by
  induction ws generalizing run with
  | nil => simp [rowLength]
  | cons w ws ih =>
      cases w with
      | free => simp [rowLength]
      | bit | bytes _ => rw [rowLength, Option.map_eq_none_iff, ih]; simp

theorem exactWidths_eq (indexed : Bool) (ts : List Descriptor) :
    exactWidths indexed ts = ts.map fun t => widthOf t (t.exactLength indexed) := by
  induction ts with
  | nil => rw [exactWidths, List.map_nil]
  | cons t ts ih => rw [exactWidths, ih, List.map_cons]

theorem widthOf_eq_free_iff {length : Option Nat} :
    widthOf t length = .free ↔ t.isBool = false ∧ length = none := by
  cases hb : t.isBool with
  | true => simp [hb]
  | false => cases length <;> simp [hb]

theorem isDynamic_of_isMeasured (ht : t.isMeasured = true) :
    t.length? indexed = none ↔ t.isDynamic = true := by
  cases t with
  | staticArray c n =>
      rw [eq_bool_of_isBool ht]
      simp [length?, isBool, isDynamic]
  | tuple _ | struct _ _ => cases ht
  | _ => simp [length?, isDynamic]

/-- **EVERY STATIC TYPE HAS A NUMBER OF BYTES**, and no other type has. -/
theorem exactLength_eq_none_iff : t.exactLength indexed = none ↔ t.isDynamic = true := by
  induction t using Descriptor.inductOn with
  | step t ih =>
      obtain ht | ⟨c, count, rfl, hb⟩ | ⟨ts, hts⟩ := cases_of_length t
      · rw [exactLength_of_isMeasured ht, isDynamic_of_isMeasured ht]
      · rw [exactLength, if_neg (by simp [hb]), Option.map_eq_none_iff,
          ih c (List.mem_singleton_self c), isDynamic]
      · rw [exactLength_of_components hts, isDynamic_of_components hts, rowLength_eq_none_iff,
          exactWidths_eq, List.mem_map, anyDynamic_iff]
        constructor
        · rintro ⟨c, hc, hfree⟩
          exact ⟨c, hc, (ih c (inner_of_components hts ▸ hc)).mp (widthOf_eq_free_iff.mp hfree).2⟩
        · rintro ⟨c, hc, hd⟩
          exact ⟨c, hc, widthOf_eq_free_iff.mpr ⟨isBool_of_isDynamic hd,
            (ih c (inner_of_components hts ▸ hc)).mpr hd⟩⟩

/-! ## Encodings -/

/-- A static component of a row is as wide as what is encoded for it. -/
theorem RowYields.map_exactWidth {items : List Value} {before after : Layout}
    {parts : List Part} (hstatic : ∀ t ∈ ts, t.isDynamic = false)
    (hlength : ∀ t ∈ ts, ∀ {v before after bytes}, Yields (t.encodeIn v) before bytes after →
      t.exactLength before.isSome = some bytes.length)
    (h : RowYields ts items before parts after) :
    parts.map Part.width = exactWidths before.isSome ts := by
  induction h with
  | nil =>
      rw [exactWidths]
      rfl
  | bit b _ ih =>
      rw [List.forall_mem_cons] at hstatic hlength
      rw [List.map_cons, exactWidths, ih hstatic.2 hlength.2, widthOf_of_isBool rfl, Part.width]
  | whole hb hbytes _ ih =>
      rw [List.forall_mem_cons] at hstatic hlength
      have hsome := (grows_encodeIn hbytes).isSome_eq
      rw [List.map_cons, exactWidths, wholePart_fixed hstatic.1, Part.width,
        hlength.1 hbytes, widthOf_some hb, ih hstatic.2 hlength.2, hsome]

/-- The number of bytes of a static sequence is that of its row. -/
theorem exactLength_of_rowTypes {count : Nat} (hd : t.isDynamic = false) (ht : t.isSequence = true)
    (hcount : t.TakesCount count) :
    t.exactLength indexed = rowLength 0 (exactWidths indexed (t.rowTypes count)) := by
  cases t with
  | staticArray c k =>
      obtain rfl : count = k := hcount
      rw [rowTypes, exactWidths_eq, List.map_replicate, exactLength]
      cases hb : c.isBool with
      | true =>
          rw [if_pos rfl, widthOf_of_isBool hb, rowLength_replicate_bit count (by omega)]
          rfl
      | false =>
          rw [if_neg (by simp)]
          cases hc : c.exactLength indexed with
          | none =>
              rw [isDynamic, exactLength_eq_none_iff.mp hc] at hd
              cases hd
          | some w => rw [widthOf_some hb, rowLength_replicate_bytes, Option.map_some]
  | tuple us => exact exactLength_of_components rfl
  | struct a fs => exact exactLength_of_components rfl
  | dynamicArray _ => cases hd
  | _ => cases ht

/-- The components of a static sequence are static. -/
theorem static_of_rowTypes {count : Nat} (hd : t.isDynamic = false)
    (hc : c ∈ t.rowTypes count) : c.isDynamic = false := by
  have hrow : ∀ {ts}, anyDynamic ts = false → c ∈ ts → c.isDynamic = false := fun hts hc =>
    Bool.eq_false_iff.mpr fun hdc => Bool.eq_false_iff.mp hts (anyDynamic_iff.mpr ⟨c, hc, hdc⟩)
  cases t with
  | staticArray element k =>
      rw [List.eq_of_mem_replicate hc]
      exact hd
  | tuple us => exact hrow hd hc
  | struct a fs =>
      rw [isDynamic, anyFieldDynamic_eq] at hd
      exact hrow hd hc
  | dynamicArray _ => cases hd
  | _ => cases hc

/-- **WHAT IS ENCODED AS A STATIC TYPE TAKES ITS NUMBER OF BYTES**, in either layout of
    references. -/
theorem exactLength_of_yields {v : Value} {before after : Layout} {bytes : Bytes}
    (hd : t.isDynamic = false) (h : Yields (t.encodeIn v) before bytes after) :
    t.exactLength before.isSome = some bytes.length := by
  induction t using Descriptor.inductOn generalizing v before after bytes with
  | step t ih =>
      cases ht : t.isSequence with
      | false =>
          have hmeasured : t.isMeasured = true := by
            cases t with
            | staticArray _ _ | dynamicArray _ | tuple _ | struct _ _ => cases ht
            | _ => rfl
          rw [exactLength_of_isMeasured hmeasured]
          cases hn : t.length? before.isSome with
          | none =>
              rw [(isDynamic_of_isMeasured hmeasured).mp hn] at hd
              cases hd
          | some n => rw [length_leaf ht h hn]
      | true =>
          obtain ⟨items, parts, body, count, hitems, hparts, hbody, hcount, rfl⟩ :=
            (yields_encodeIn_sequence ht).mp h
          have htakes := takesCount_of_rowItems hitems
          -- only a dynamic array writes a count in front
          have hempty : count = [] := by
            cases t with
            | dynamicArray _ => cases hd
            | _ => exact (Except.ok.inj hcount).symm
          have hwidths := hparts.map_exactWidth (fun c hc => static_of_rowTypes hd hc)
            fun c hc _ _ _ _ hbytes =>
              ih c (mem_inner_of_mem_rowTypes hc) (static_of_rowTypes hd hc) hbytes
          -- every component is static, so every part has a width
          have hfree : ∀ p ∈ parts, p.width ≠ .free := by
            intro p hp hfree
            have hmem := hwidths ▸ List.mem_map_of_mem hp
            rw [hfree, exactWidths_eq] at hmem
            obtain ⟨c, hc, hwidth⟩ := List.mem_map.mp hmem
            have hdc := exactLength_eq_none_iff.mp (widthOf_eq_free_iff.mp hwidth).2
            rw [static_of_rowTypes hd hc] at hdc
            cases hdc
          rw [hempty, List.nil_append, exactLength_of_rowTypes hd ht htakes, ← hwidths]
          exact rowLength_of_isRow hfree (isRow_of_assemble hbody)

end Descriptor

end AvmSandbox
