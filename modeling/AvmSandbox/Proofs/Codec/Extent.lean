import AvmSandbox.Proofs.Codec.Leaf

/-! # Extent — how far an encoding reaches

    Encoding touches nothing but the reference arrays, and those only at their
    ends.  And where the type is static the bytes have the length that the type
    foretells, which is what a reader relies on to find the next component.

    * `grows_encodeIn`: the arrays only grow;
    * `length_encodeIn`: static types take their length;
    * `length?_le`: references by index are never longer. -/

namespace AvmSandbox

namespace Descriptor

open Encoding

/-! ## Growth -/

/-- What every component leaves in place, the row leaves in place. -/
theorem RowYields.grows {ts : List Descriptor} {items : List Value} {before after : Layout}
    {parts : List Part}
    (hgrows : ∀ t ∈ ts, ∀ {v before after bytes}, Yields (t.encodeIn v) before bytes after →
      Grows before after)
    (h : RowYields ts items before parts after) : Grows before after := by
  induction h with
  | nil => exact .refl _
  | bit b _ ih =>
      rw [List.forall_mem_cons] at hgrows
      exact ih hgrows.2
  | whole _ hbytes _ ih =>
      rw [List.forall_mem_cons] at hgrows
      exact (hgrows.1 hbytes).trans (ih hgrows.2)

/-- **REFERENCES ARE ONLY APPENDED**: no encoding takes a reference away or moves it. -/
theorem grows_encodeIn {t : Descriptor} {v : Value} {before after : Layout} {bytes : Bytes}
    (h : Yields (t.encodeIn v) before bytes after) : Grows before after := by
  induction t using Descriptor.inductOn generalizing v before after bytes with
  | step t ih =>
      cases ht : t.isSequence with
      | false => exact grows_leaf ht h
      | true =>
          obtain ⟨items, parts, body, count, -, hparts, -⟩ :=
            (yields_encodeIn_sequence ht).mp h
          exact hparts.grows fun c hc _ _ _ _ hbytes =>
            ih c (mem_inner_of_mem_rowTypes hc) hbytes

/-! ## Static types -/

theorem anyFieldDynamic_eq (fs : List (String × Descriptor)) :
    anyFieldDynamic fs = anyDynamic (fs.map Prod.snd) := by
  induction fs with
  | nil => rw [anyFieldDynamic, List.map_nil, anyDynamic]
  | cons f fs ih =>
      obtain ⟨name, t⟩ := f
      rw [anyFieldDynamic, List.map_cons, anyDynamic, ih]

theorem fieldWidths_eq (indexed : Bool) (fs : List (String × Descriptor)) :
    fieldWidths indexed fs = widths indexed (fs.map Prod.snd) := by
  induction fs with
  | nil => rw [fieldWidths, List.map_nil, widths]
  | cons f fs ih =>
      obtain ⟨name, t⟩ := f
      rw [fieldWidths, List.map_cons, widths, ih]

theorem widths_eq (indexed : Bool) (ts : List Descriptor) :
    widths indexed ts = ts.map fun t => widthOf t (t.length? indexed) := by
  induction ts with
  | nil => rw [widths, List.map_nil]
  | cons t ts ih => rw [widths, ih, List.map_cons]

theorem widths_replicate (indexed : Bool) (n : Nat) (t : Descriptor) :
    widths indexed (List.replicate n t) = List.replicate n (t.widthOf (t.length? indexed)) := by
  rw [widths_eq, List.map_replicate]

theorem anyDynamic_iff {ts : List Descriptor} :
    anyDynamic ts = true ↔ ∃ t ∈ ts, t.isDynamic = true := by
  induction ts with
  | nil => simp [anyDynamic]
  | cons t ts ih => simp [anyDynamic, ih]

@[simp] theorem widthOf_of_isBool {t : Descriptor} (hb : t.isBool = true) (length : Option Nat) :
    t.widthOf length = .bit := if_pos hb

@[simp] theorem widthOf_some {t : Descriptor} (hb : t.isBool = false) (n : Nat) :
    t.widthOf (some n) = .bytes n := by
  simp [widthOf, hb]

@[simp] theorem widthOf_none {t : Descriptor} (hb : t.isBool = false) :
    t.widthOf none = .free := by
  simp [widthOf, hb]

/-- A row with a length has components with a length. -/
theorem not_free_of_rowLength {ws : List Width} {run n : Nat} (h : rowLength run ws = some n) :
    ∀ w ∈ ws, w ≠ .free := by
  induction ws generalizing run n with
  | nil => simp
  | cons w ws ih =>
      cases w with
      | free => cases h
      | bit | bytes _ =>
          rw [rowLength] at h
          obtain ⟨m, hm, -⟩ := Option.map_eq_some_iff.mp h
          rw [List.forall_mem_cons]
          exact ⟨by simp, ih hm⟩

theorem isBool_of_isDynamic {t : Descriptor} (h : t.isDynamic = true) : t.isBool = false := by
  cases t with
  | bool => simp [isDynamic] at h
  | _ => rfl

/-- Dynamic types have no length. -/
theorem length?_of_isDynamic {t : Descriptor} (indexed : Bool) (h : t.isDynamic = true) :
    t.length? indexed = none := by
  have hrow : ∀ ts : List Descriptor,
      (∀ c ∈ ts, c.isDynamic = true → c.length? indexed = none) → anyDynamic ts = true →
      rowLength 0 (widths indexed ts) = none := by
    intro ts ih hts
    -- one component without a length leaves the row without one
    obtain ⟨c, hc, hd⟩ := anyDynamic_iff.mp hts
    cases hlen : rowLength 0 (widths indexed ts) with
    | none => rfl
    | some n =>
        have hfree : widthOf c (c.length? indexed) = .free := by
          rw [ih c hc hd, widthOf_none (isBool_of_isDynamic hd)]
        refine absurd hfree (not_free_of_rowLength hlen _ ?_)
        rw [widths_eq]
        exact List.mem_map_of_mem hc
  induction t using Descriptor.inductOn with
  | step t ih =>
      cases t with
      | staticArray t n =>
          have hd : t.isDynamic = true := by simpa [isDynamic] using h
          simp [length?, isBool_of_isDynamic hd, ih t (List.mem_singleton_self t) hd]
      | tuple ts =>
          rw [length?]
          exact hrow ts ih (by simpa [isDynamic] using h)
      | struct a fs =>
          rw [length?, fieldWidths_eq]
          rw [isDynamic, anyFieldDynamic_eq] at h
          exact hrow _ ih h
      | string | dynamicBytes | dynamicArray _ => rw [length?]
      | _ => simp [isDynamic] at h

/-- What has a length is static. -/
theorem isDynamic_of_length? {t : Descriptor} {indexed : Bool} {n : Nat}
    (h : t.length? indexed = some n) : t.isDynamic = false := by
  cases hd : t.isDynamic with
  | false => rfl
  | true =>
      rw [length?_of_isDynamic indexed hd] at h
      cases h

theorem rowLength_replicate_bytes (w n : Nat) :
    rowLength 0 (List.replicate n (.bytes w)) = some (w * n) := by
  induction n with
  | zero => rfl
  | succ n ih =>
      rw [List.replicate_succ, rowLength, ih, Option.map_some, Nat.mul_succ, Nat.add_comm]

theorem rowLength_replicate_bit (n : Nat) {run : Nat} (hrun : run < 8) :
    rowLength run (List.replicate n .bit)
      = some ((n + run + 7) / 8 - if run = 0 then 0 else 1) := by
  -- a run that has begun has already paid for its byte
  induction n generalizing run with
  | zero =>
      rw [List.replicate_zero, rowLength]
      split
      · next h => rw [h]
      · next h =>
          have hone : (0 + run + 7) / 8 = 1 := by omega
          rw [hone]
  | succ n ih =>
      rw [List.replicate_succ, rowLength, ih (Nat.mod_lt _ (by omega)), Option.map_some]
      congr 1
      by_cases hlast : run = 7
      · rw [if_neg (by omega), if_pos (by omega), if_neg (by omega), hlast]
        omega
      · have hnext : (run + 1) % 8 = run + 1 := Nat.mod_eq_of_lt (by omega)
        rw [hnext, if_neg (Nat.succ_ne_zero run)]
        split
        · omega
        · omega

/-- The length of a static sequence is that of its row. -/
theorem rowLength_rowTypes {t : Descriptor} {indexed : Bool} {n count : Nat}
    (hn : t.length? indexed = some n) (ht : t.isSequence = true) (hcount : t.TakesCount count) :
    rowLength 0 (widths indexed (t.rowTypes count)) = some n := by
  cases t with
  | staticArray t k =>
      have hcount : count = k := hcount
      rw [rowTypes, hcount, widths_replicate]
      rw [length?] at hn
      cases hb : t.isBool with
      | true =>
          rw [widthOf_of_isBool hb, rowLength_replicate_bit k (by omega)]
          simpa [hb] using hn
      | false =>
          simp only [hb, Bool.false_eq_true, if_false] at hn
          obtain ⟨w, hw, hn⟩ := Option.bind_eq_some_iff.mp hn
          split at hn
          · rw [hw, widthOf_some hb, ← hn]
            exact rowLength_replicate_bytes w k
          · cases hn
  | tuple ts =>
      rw [length?] at hn
      exact hn
  | struct a fs =>
      rw [length?, fieldWidths_eq] at hn
      exact hn
  | dynamicArray t => simp [length?] at hn
  | _ => cases ht

/-- Components of a row whose types have lengths are as wide as those. -/
theorem RowYields.map_width {ts : List Descriptor} {items : List Value} {before after : Layout}
    {parts : List Part} (hstatic : ∀ w ∈ widths before.isSome ts, w ≠ .free)
    (hlength : ∀ t ∈ ts, ∀ {v before after bytes n}, Yields (t.encodeIn v) before bytes after →
      t.length? before.isSome = some n → bytes.length = n)
    (h : RowYields ts items before parts after) :
    parts.map Part.width = widths before.isSome ts := by
  induction h with
  | nil =>
      rw [widths]
      rfl
  | bit b _ ih =>
      rw [widths, List.forall_mem_cons] at hstatic
      rw [List.forall_mem_cons] at hlength
      rw [List.map_cons, widths, ih hstatic.2 hlength.2, widthOf_of_isBool rfl, Part.width]
  | @whole t _ _ _ before _ _ bytes _ hb hbytes _ ih =>
      rw [widths, List.forall_mem_cons] at hstatic
      rw [List.forall_mem_cons] at hlength
      have hsome := (grows_encodeIn hbytes).isSome_eq
      have hrest := ih (hsome ▸ hstatic.2) hlength.2
      have hwidth : (t.wholePart bytes).width = widthOf t (t.length? before.isSome) := by
        cases hn : t.length? before.isSome with
        | none =>
            rw [hn, widthOf_none hb] at hstatic
            exact absurd rfl hstatic.1
        | some n =>
            rw [wholePart_fixed (isDynamic_of_length? hn), Part.width, hlength.1 hbytes hn,
              widthOf_some hb]
      rw [List.map_cons, widths, hwidth, hrest, hsome]

/-- A row whose types have lengths takes what its widths add up to. -/
theorem RowYields.length_eq {ts : List Descriptor} {items : List Value} {before after : Layout}
    {parts : List Part} {body : Bytes} {n : Nat}
    (hlength : ∀ t ∈ ts, ∀ {v before after bytes n}, Yields (t.encodeIn v) before bytes after →
      t.length? before.isSome = some n → bytes.length = n)
    (h : RowYields ts items before parts after) (hbody : assemble parts = .ok body)
    (hn : rowLength 0 (widths before.isSome ts) = some n) : body.length = n := by
  have hstatic := not_free_of_rowLength hn
  have hwidths := h.map_width hstatic hlength
  have hsum := rowLength_of_isRow (fun p hp => hstatic p.width (by
    rw [← hwidths]
    exact List.mem_map_of_mem hp)) (isRow_of_assemble hbody)
  rw [hwidths, hn] at hsum
  exact (Option.some.inj hsum).symm

/-- **STATIC TYPES TAKE THEIR LENGTH**, in either layout of references. -/
theorem length_encodeIn {t : Descriptor} {v : Value} {before after : Layout} {bytes : Bytes}
    {n : Nat} (h : Yields (t.encodeIn v) before bytes after)
    (hn : t.length? before.isSome = some n) : bytes.length = n := by
  induction t using Descriptor.inductOn generalizing v before after bytes n with
  | step t ih =>
      cases ht : t.isSequence with
      | false => exact length_leaf ht h hn
      | true =>
          obtain ⟨items, parts, body, count, hitems, hparts, hbody, hcount, rfl⟩ :=
            (yields_encodeIn_sequence ht).mp h
          have htakes := takesCount_of_rowItems hitems
          have hlength := hparts.length_eq (fun c hc _ _ _ _ _ hbytes hm =>
            ih c (mem_inner_of_mem_rowTypes hc) hbytes hm) hbody (rowLength_rowTypes hn ht htakes)
          -- only dynamic arrays have a count in front, and those have no length
          have hempty : count = [] := by
            cases t with
            | dynamicArray t => simp [length?] at hn
            | _ => exact (Except.ok.inj hcount).symm
          rw [hempty, List.nil_append]
          exact hlength

/-- The heads of a row of dynamic components are the positions of their tails. -/
private theorem RowYields.length_heads {ts : List Descriptor} {items : List Value}
    {before after : Layout} {parts : List Part} (hd : ∀ t ∈ ts, t.isDynamic = true)
    (hparts : RowYields ts items before parts after) {offset : Nat} {front : Bytes}
    (hfront : HeadsAt ⟨0, 0⟩ offset parts front) : front.length = 2 * ts.length := by
  induction hparts generalizing offset front with
  | nil =>
      have hempty : front = [] := hfront
      rw [hempty]
      rfl
  | bit b _ _ =>
      rw [List.forall_mem_cons] at hd
      exact absurd (isBool_of_isDynamic hd.1) (by simp [isBool])
  | whole _ _ _ ih =>
      rw [List.forall_mem_cons] at hd
      rw [wholePart_varying hd.1] at hfront
      obtain ⟨hi, lo, rest, rfl, -, hrest⟩ := hfront
      rw [List.length_cons, List.length_cons, ih hd.2 hrest, List.length_cons]
      omega

/-- A row has at least two bytes for each dynamic component. -/
theorem RowYields.two_mul_le {ts : List Descriptor} {items : List Value}
    {before after : Layout} {parts : List Part} {body : Bytes}
    (hd : ∀ t ∈ ts, t.isDynamic = true) (hparts : RowYields ts items before parts after)
    (hbody : assemble parts = .ok body) : 2 * ts.length ≤ body.length := by
  obtain ⟨front, hfront, rfl⟩ := isRow_of_assemble hbody
  rw [List.length_append, hparts.length_heads hd hfront]
  omega

/-! ## By index and by value -/

private theorem rowLength_le {ts : List Descriptor} {run n : Nat}
    (hle : ∀ t ∈ ts, ∀ {a}, t.length? false = some a → ∃ b ≤ a, t.length? true = some b)
    (hn : rowLength run (widths false ts) = some n) :
    ∃ m ≤ n, rowLength run (widths true ts) = some m := by
  induction ts generalizing run n with
  | nil =>
      rw [widths] at hn ⊢
      exact ⟨n, Nat.le_refl n, hn⟩
  | cons t ts ih =>
      rw [List.forall_mem_cons] at hle
      rw [widths] at hn ⊢
      cases hb : t.isBool with
      | true =>
          simp only [widthOf_of_isBool hb, rowLength] at hn ⊢
          obtain ⟨k, hk, rfl⟩ := Option.map_eq_some_iff.mp hn
          obtain ⟨m, hm, hrest⟩ := ih hle.2 hk
          exact ⟨_, Nat.add_le_add_left hm _, by rw [hrest, Option.map_some]⟩
      | false =>
          cases ha : t.length? false with
          | none =>
              rw [ha, widthOf_none hb] at hn
              cases hn
          | some a =>
              obtain ⟨b, hba, hlen⟩ := hle.1 ha
              rw [ha, widthOf_some hb, rowLength] at hn
              rw [hlen, widthOf_some hb, rowLength]
              obtain ⟨k, hk, rfl⟩ := Option.map_eq_some_iff.mp hn
              obtain ⟨m, hm, hrest⟩ := ih hle.2 hk
              exact ⟨_, Nat.add_le_add hba hm, by rw [hrest, Option.map_some]⟩

/-- By index a type has a length if it has one by value, and none that is longer. -/
theorem length?_le {t : Descriptor} {a : Nat} (ha : t.length? false = some a) :
    ∃ b ≤ a, t.length? true = some b := by
  induction t using Descriptor.inductOn generalizing a with
  | step t ih =>
      cases t with
      | staticArray t n =>
          rw [length?] at ha ⊢
          cases hb : t.isBool with
          | true =>
              rw [hb, if_pos rfl] at ha
              exact ⟨a, Nat.le_refl a, ha⟩
          | false =>
              simp only [hb, Bool.false_eq_true, if_false] at ha ⊢
              obtain ⟨w, hw, ha⟩ := Option.bind_eq_some_iff.mp ha
              split at ha
              · next hlt =>
                  obtain ⟨w', hle, hw'⟩ := ih t (List.mem_singleton_self t) hw
                  have hmul : w' * n ≤ w * n := Nat.mul_le_mul_right n hle
                  rw [hw', Option.bind_some, if_pos (by omega)]
                  exact ⟨w' * n, by rw [← Option.some.inj ha]; exact hmul, rfl⟩
              · cases ha
      | tuple ts =>
          rw [length?] at ha ⊢
          exact rowLength_le (fun c hc _ h => ih c hc h) ha
      | struct a fs =>
          rw [length?, fieldWidths_eq] at ha ⊢
          exact rowLength_le (fun c hc _ h => ih c hc h) ha
      -- a reference takes one byte by index, and more by value
      | account | asset | application =>
          simp only [length?, Bool.false_eq_true, if_false, Option.some.injEq] at ha
          exact ⟨1, by omega, by simp [length?]⟩
      | string | dynamicBytes | dynamicArray _ => simp [length?] at ha
      | _ =>
          rw [length?] at ha ⊢
          exact ⟨a, Nat.le_refl a, ha⟩

end Descriptor

end AvmSandbox
