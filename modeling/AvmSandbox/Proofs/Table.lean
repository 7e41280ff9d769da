import AvmSandbox.Table
import Mathlib.Data.List.Perm.Subperm

/-! # Tables — the values they hold

    Looking up says what a key has, and nothing about how many entries there
    are.  Counting needs more: that no key has two entries, which holds of every
    table whose entries stand in increasing key order.

    * `contains_insert`, `contains_erase`: which keys have a value;
    * `Increasing`, `increasing_insert`, `increasing_erase`: entries in key order;
    * `values_insert_of_absent`, `exists_values_insert`, `values_erase`: the values
      of a table, up to their order, behind a write. -/

namespace AvmSandbox

namespace Table

variable {κ ν : Type}

/-- The values, in key order. -/
def values (t : Table κ ν) : List ν := t.entries.map Prod.snd

theorem length_values (t : Table κ ν) : t.values.length = t.size := List.length_map _

/-! ## Keys -/

section Keys

variable [DecidableEq κ]

/-- A table has a key when it has a value under it. -/
theorem contains_eq_true_iff {t : Table κ ν} {key : κ} :
    t.contains key = true ↔ ∃ v, t.get? key = some v := Option.isSome_iff_exists

theorem contains_eq_false_iff {t : Table κ ν} {key : κ} :
    t.contains key = false ↔ t.get? key = none :=
  Option.isSome_eq_false_iff.trans Option.isNone_iff_eq_none

theorem contains_of_get? {t : Table κ ν} {key : κ} {v : ν} (h : t.get? key = some v) :
    t.contains key = true := contains_eq_true_iff.mpr ⟨v, h⟩

/-- The keys that are listed are those that the table has. -/
theorem mem_keys_iff {t : Table κ ν} {key : κ} : key ∈ t.keys ↔ t.contains key = true := by
  obtain ⟨entries⟩ := t
  show key ∈ entries.map Prod.fst ↔ (lookup key entries).isSome = true
  induction entries with
  | nil => simp [lookup]
  | cons e rest ih =>
      obtain ⟨k, v⟩ := e
      rw [List.map_cons, List.mem_cons, ih, lookup]
      by_cases h : key = k
      · simp [h]
      · simp [h]

/-- What is found is one of the entries. -/
theorem mem_entries_of_get? {t : Table κ ν} {key : κ} {v : ν} (h : t.get? key = some v) :
    (key, v) ∈ t.entries := by
  obtain ⟨entries⟩ := t
  change lookup key entries = some v at h
  show (key, v) ∈ entries
  induction entries with
  | nil => cases h
  | cons e rest ih =>
      obtain ⟨k, u⟩ := e
      rw [lookup] at h
      by_cases hk : key = k
      · rw [if_pos hk] at h
        cases h
        rw [hk]
        exact List.mem_cons_self
      · rw [if_neg hk] at h
        exact List.mem_cons_of_mem _ (ih h)

/-- Erasing takes one key and no other. -/
theorem contains_erase (t : Table κ ν) (key other : κ) :
    (t.erase key).contains other = true ↔ other ≠ key ∧ t.contains other = true := by
  rw [contains, contains, get?_erase]
  by_cases h : other = key
  · simp [h]
  · simp [h]

variable [LT κ] [DecidableLT κ]

/-- Inserting adds one key and no other. -/
theorem contains_insert (t : Table κ ν) (key : κ) (value : ν) (other : κ) :
    (t.insert key value).contains other = true ↔ other = key ∨ t.contains other = true := by
  rw [contains, contains, get?_insert]
  by_cases h : other = key
  · simp [h]
  · simp [h]

/-- Overwriting adds no key. -/
theorem contains_insert_of_contains {t : Table κ ν} {key : κ} (value : ν)
    (h : t.contains key = true) (other : κ) :
    (t.insert key value).contains other = t.contains other := by
  rw [Bool.eq_iff_iff, contains_insert]
  constructor
  · rintro (rfl | hother)
    · exact h
    · exact hother
  · exact Or.inr

/-- Placing an entry adds no other one. -/
theorem eq_or_mem_of_mem_place {key : κ} {v : ν} {entries : List (κ × ν)} {e : κ × ν}
    (h : e ∈ place key v entries) : e = (key, v) ∨ e ∈ entries := by
  induction entries with
  | nil => exact .inl (List.mem_singleton.mp h)
  | cons d rest ih =>
      obtain ⟨k, u⟩ := d
      rw [place] at h
      by_cases hk : key = k
      · rw [if_pos hk, List.mem_cons] at h
        rcases h with rfl | h
        · exact .inl rfl
        · exact .inr (List.mem_cons_of_mem _ h)
      · rw [if_neg hk] at h
        by_cases hlt : key < k
        · rw [if_pos hlt] at h
          rcases List.mem_cons.mp h with rfl | h
          · exact .inl rfl
          · exact .inr h
        · rw [if_neg hlt] at h
          rcases List.mem_cons.mp h with rfl | h
          · exact .inr List.mem_cons_self
          · exact (ih h).imp_right (List.mem_cons_of_mem _)

/-- A key without a value gets an entry of its own, whatever the order. -/
theorem perm_place_of_absent {key : κ} {entries : List (κ × ν)} (value : ν)
    (h : lookup key entries = none) : (place key value entries).Perm ((key, value) :: entries) := by
  induction entries with
  | nil => exact .refl _
  | cons e rest ih =>
      obtain ⟨k, v⟩ := e
      rw [lookup] at h
      by_cases hk : key = k
      · rw [if_pos hk] at h
        cases h
      · rw [if_neg hk] at h
        rw [place, if_neg hk]
        by_cases hlt : key < k
        · rw [if_pos hlt]
        · rw [if_neg hlt]
          exact ((ih h).cons (k, v)).trans (.swap ..)

/-- A new key adds its value. -/
theorem values_insert_of_absent {t : Table κ ν} {key : κ} (value : ν)
    (h : t.contains key = false) : (t.insert key value).values.Perm (value :: t.values) :=
  (perm_place_of_absent value (contains_eq_false_iff.mp h)).map Prod.snd

/-- A key that is new makes the table larger by one. -/
theorem size_insert_of_absent {t : Table κ ν} {key : κ} (value : ν)
    (h : t.contains key = false) : (t.insert key value).size = t.size + 1 := by
  rw [← length_values, (values_insert_of_absent value h).length_eq, List.length_cons, length_values]

end Keys

/-! ## Tables in key order -/

section Increasing

variable {t : Table UInt64 ν} {key : UInt64} {v w : ν}

/-- Whether the entries stand in increasing key order. -/
def Increasing (t : Table UInt64 ν) : Prop := t.entries.Pairwise fun a b => a.1 < b.1

theorem increasing_empty : ({} : Table UInt64 ν).Increasing := .nil

/-- An entry is put in its place. -/
theorem increasing_insert (h : t.Increasing) (key : UInt64) (v : ν) :
    (t.insert key v).Increasing := by
  show (place key v t.entries).Pairwise _
  rw [Increasing] at h
  generalize t.entries = entries at h
  induction entries with
  | nil => exact List.pairwise_singleton _ _
  | cons d rest ih =>
      obtain ⟨k, u⟩ := d
      rw [List.pairwise_cons] at h
      obtain ⟨hfirst, hrest⟩ := h
      rw [place]
      by_cases hk : key = k
      · subst hk
        rw [if_pos rfl]
        exact .cons hfirst hrest
      · rw [if_neg hk]
        by_cases hlt : key < k
        · rw [if_pos hlt]
          refine .cons ?_ (.cons hfirst hrest)
          intro e he
          rcases List.mem_cons.mp he with rfl | he
          · exact hlt
          · exact UInt64.lt_trans hlt (hfirst e he)
        · rw [if_neg hlt]
          have hgt : k < key := UInt64.lt_of_le_of_ne (UInt64.not_lt.mp hlt) (Ne.symm hk)
          refine .cons ?_ (ih hrest)
          intro e he
          rcases eq_or_mem_of_mem_place he with rfl | he
          · exact hgt
          · exact hfirst e he

/-- Leaving out an entry keeps the order of the others. -/
theorem increasing_erase (h : t.Increasing) (key : UInt64) : (t.erase key).Increasing :=
  List.Pairwise.filter _ h

/-- No key stands twice among the entries, so there are no more of them than keys below a bound. -/
theorem size_le_of_forall_lt (h : t.Increasing) {bound : UInt64}
    (hkeys : ∀ key, t.contains key = true → key < bound) : t.size ≤ bound.toNat := by
  have hnodup : (t.keys.map UInt64.toNat).Nodup := by
    rw [List.Nodup, keys, List.pairwise_map, List.pairwise_map]
    exact h.imp fun hlt => Nat.ne_of_lt (UInt64.lt_iff_toNat_lt.mp hlt)
  have hbelow : t.keys.map UInt64.toNat ⊆ List.range bound.toNat := by
    intro n hn
    obtain ⟨key, hkey, rfl⟩ := List.mem_map.mp hn
    exact List.mem_range.mpr (UInt64.lt_iff_toNat_lt.mp (hkeys key (mem_keys_iff.mp hkey)))
  have hlength := (hnodup.subperm hbelow).length_le
  rwa [List.length_range, List.length_map, keys, List.length_map] at hlength

/-- A key that comes before all others has no entry among them. -/
private theorem lookup_eq_none_of_lt {entries : List (UInt64 × ν)}
    (h : ∀ e ∈ entries, key < e.1) : lookup key entries = none := by
  induction entries with
  | nil => rfl
  | cons d rest ih =>
      obtain ⟨k, u⟩ := d
      rw [List.forall_mem_cons] at h
      have hk : key ≠ k := UInt64.ne_of_lt h.1
      rw [lookup, if_neg hk]
      exact ih h.2

private theorem filter_eq_self_of_absent {entries : List (UInt64 × ν)}
    (h : lookup key entries = none) :
    (entries.filter fun e => decide (key ≠ e.1)) = entries := by
  induction entries with
  | nil => rfl
  | cons d rest ih =>
      obtain ⟨k, u⟩ := d
      rw [lookup] at h
      by_cases hk : key = k
      · rw [if_pos hk] at h
        cases h
      · rw [if_neg hk] at h
        rw [List.filter_cons_of_pos (by simpa using hk), ih h]

/-- Overwriting a key replaces its value and keeps all others. -/
theorem exists_values_insert (h : t.Increasing) (hv : t.get? key = some v) (w : ν) :
    ∃ rest, t.values.Perm (v :: rest) ∧ (t.insert key w).values.Perm (w :: rest) := by
  obtain ⟨entries⟩ := t
  show ∃ rest, (entries.map Prod.snd).Perm (v :: rest) ∧
    ((place key w entries).map Prod.snd).Perm (w :: rest)
  change lookup key entries = some v at hv
  change entries.Pairwise fun a b => a.1 < b.1 at h
  induction entries with
  | nil => cases hv
  | cons d rest ih =>
      obtain ⟨k, u⟩ := d
      rw [List.pairwise_cons] at h
      rw [lookup] at hv
      by_cases hk : key = k
      · rw [if_pos hk] at hv
        cases hv
        refine ⟨rest.map Prod.snd, .refl _, ?_⟩
        rw [place, if_pos hk]
        exact .refl _
      · rw [if_neg hk] at hv
        -- the key stands behind this one, since all keys behind are larger
        have hlt : ¬key < k := by
          intro hlt
          have hnone : lookup key rest = none :=
            lookup_eq_none_of_lt fun e he => UInt64.lt_trans hlt (h.1 e he)
          rw [hnone] at hv
          cases hv
        obtain ⟨others, hbefore, hafter⟩ := ih hv h.2
        refine ⟨u :: others, (hbefore.cons u).trans (.swap ..), ?_⟩
        rw [place, if_neg hk, if_neg hlt]
        exact (hafter.cons u).trans (.swap ..)

/-- Erasing a key drops its value and keeps all others. -/
theorem values_erase (h : t.Increasing) (hv : t.get? key = some v) :
    t.values.Perm (v :: (t.erase key).values) := by
  obtain ⟨entries⟩ := t
  show (entries.map Prod.snd).Perm
    (v :: (entries.filter fun e => decide (key ≠ e.1)).map Prod.snd)
  change lookup key entries = some v at hv
  change entries.Pairwise fun a b => a.1 < b.1 at h
  induction entries with
  | nil => cases hv
  | cons d rest ih =>
      obtain ⟨k, u⟩ := d
      rw [List.pairwise_cons] at h
      rw [lookup] at hv
      by_cases hk : key = k
      · subst hk
        rw [if_pos rfl] at hv
        cases hv
        have hnone : lookup key rest = none := lookup_eq_none_of_lt h.1
        rw [List.filter_cons_of_neg (by simp), filter_eq_self_of_absent hnone]
        exact .refl _
      · rw [if_neg hk] at hv
        rw [List.filter_cons_of_pos (by simpa using hk)]
        exact ((ih hv h.2).cons u).trans (.swap ..)

/-- Overwriting keeps the size, because a key stands in one place only. -/
theorem size_insert_of_contains (h : t.Increasing) (hkey : t.contains key = true) (w : ν) :
    (t.insert key w).size = t.size := by
  obtain ⟨v, hv⟩ := contains_eq_true_iff.mp hkey
  obtain ⟨rest, hbefore, hafter⟩ := exists_values_insert h hv w
  rw [← length_values, ← length_values, hbefore.length_eq, hafter.length_eq, List.length_cons,
    List.length_cons]

/-- Erasing a key makes the table smaller by one, for the same reason. -/
theorem size_erase_of_contains (h : t.Increasing) (hkey : t.contains key = true) :
    (t.erase key).size = t.size - 1 := by
  obtain ⟨v, hv⟩ := contains_eq_true_iff.mp hkey
  rw [← length_values, ← length_values, (values_erase h hv).length_eq, List.length_cons]
  omega

end Increasing

end Table

end AvmSandbox
