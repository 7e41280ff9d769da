/-! # Tables — finite maps listed in key order

    A table is a list of key–value pairs.  `insert` puts a new key before the
    first larger one and overwrites a key that is present, so the entries stay
    in increasing key order, which is the order answers list them in.  The laws
    of `get?` after `insert` and `erase` hold of every table. -/

namespace AvmSandbox

/-- Key–value pairs in increasing key order. -/
structure Table (κ : Type) (ν : Type) where
  /-- The pairs, in key order. -/
  entries : List (κ × ν) := []
  deriving Inhabited

namespace Table

variable {κ ν : Type}

/-- The table without entries. -/
def empty : Table κ ν := {}

/-- The keys, in order. -/
def keys (t : Table κ ν) : List κ := t.entries.map Prod.fst

/-- The number of entries. -/
def size (t : Table κ ν) : Nat := t.entries.length

variable [DecidableEq κ]

/-- The value of the first pair with the given key. -/
def lookup (key : κ) : List (κ × ν) → Option ν
  | [] => none
  | (k, v) :: rest => if key = k then some v else lookup key rest

def get? (t : Table κ ν) (key : κ) : Option ν := lookup key t.entries

/-- Whether a key has a value. -/
def contains (t : Table κ ν) (key : κ) : Bool := (t.get? key).isSome

/-- Removes every pair with the given key. -/
def erase (t : Table κ ν) (key : κ) : Table κ ν :=
  ⟨t.entries.filter fun entry => decide (key ≠ entry.1)⟩

section Ordered

variable [LT κ] [DecidableLT κ]

/-- Puts a pair in its place among others. -/
def place (key : κ) (value : ν) : List (κ × ν) → List (κ × ν)
  | [] => [(key, value)]
  | (k, v) :: rest =>
      if key = k then (key, value) :: rest
      else if key < k then (key, value) :: (k, v) :: rest
      else (k, v) :: place key value rest

/-- Gives a key a value. -/
def insert (t : Table κ ν) (key : κ) (value : ν) : Table κ ν :=
  ⟨place key value t.entries⟩

theorem lookup_place (key : κ) (value : ν) (entries : List (κ × ν)) (other : κ) :
    lookup other (place key value entries) =
      if other = key then some value else lookup other entries := by
  induction entries with
  | nil => simp [place, lookup]
  | cons e rest ih =>
      obtain ⟨k, v⟩ := e
      simp only [place]
      by_cases h : key = k
      · subst h
        by_cases h' : other = key <;> simp [lookup, h']
      · by_cases hlt : key < k
        · simp [h, hlt, lookup]
        · simp only [h, hlt, if_false, lookup, ih]
          by_cases h' : other = k
          · have : other ≠ key := fun e => h (e.symm.trans h')
            simp [h', Ne.symm h]
          · simp [h']

/-- Reading after a write sees the write at its own key and nothing new elsewhere. -/
theorem get?_insert (t : Table κ ν) (key : κ) (value : ν) (other : κ) :
    (t.insert key value).get? other = if other = key then some value else t.get? other :=
  lookup_place key value t.entries other

end Ordered

theorem lookup_filter (key : κ) (entries : List (κ × ν)) (other : κ) :
    lookup other (entries.filter fun entry => decide (key ≠ entry.1)) =
      if other = key then none else lookup other entries := by
  induction entries with
  | nil => simp [lookup]
  | cons e rest ih =>
      obtain ⟨k, v⟩ := e
      by_cases h : key = k
      · subst h
        by_cases h' : other = key <;> simp_all [lookup]
      · by_cases h' : other = key
        · subst h'
          simp_all [lookup]
        · simp_all [lookup]

/-- Erasing a key removes its value and no other. -/
theorem get?_erase (t : Table κ ν) (key other : κ) :
    (t.erase key).get? other = if other = key then none else t.get? other :=
  lookup_filter key t.entries other

@[simp] theorem get?_empty (key : κ) : (empty : Table κ ν).get? key = none := rfl

end Table

end AvmSandbox
