import AvmSandbox.Descriptor.Name
import AvmSandbox.Proofs.Codec.Form

/-! # Spelling — what a name says about its type

    A name is a word or a row of names between parentheses, and then the bracketed
    lengths of the arrays around it.  It forgets the names of structs and their
    fields and does not tell the byte strings from the arrays of bytes.  It forgets
    nothing else: the text in front of which a name stands can be told from it,
    and two types with one name have one normal form.

    * `normal`: structs as tuples and arrays of bytes as byte strings;
    * `stem` and `suffixes`: the word or row in front of a name, and its brackets;
    * `Legible` and `legible`: names can be told from what follows them;
    * `name_eq_iff` and `sameShape_iff`: names and normal forms. -/

namespace AvmSandbox

/-! ## Runs of characters -/

/-- Whether a text does not go on with a character of a kind. -/
def EndsRun (p : Char → Bool) (rest : List Char) : Prop := ∀ c ∈ rest.head?, p c = false

section run

variable {p : Char → Bool} {run rest run' rest' : List Char}

theorem endsRun_nil : EndsRun p [] := by
  intro c hc
  cases hc

/-- A character outside the run ends it, whatever follows. -/
theorem endsRun_cons {c : Char} (h : p c = false) : EndsRun p (c :: rest) := by
  intro d hd
  cases hd
  exact h

/-- A run is taken as a whole when what follows ends it. -/
theorem takeWhile_run (hrun : ∀ c ∈ run, p c = true) (hrest : EndsRun p rest) :
    (run ++ rest).takeWhile p = run := by
  rw [List.takeWhile_append_of_pos hrun]
  cases rest with
  | nil => rw [List.takeWhile_nil, List.append_nil]
  | cons c rest => rw [List.takeWhile_cons_of_neg (by simp [hrest c rfl]), List.append_nil]

/-- What follows a run is left when the run is dropped. -/
theorem dropWhile_run (hrun : ∀ c ∈ run, p c = true) (hrest : EndsRun p rest) :
    (run ++ rest).dropWhile p = rest := by
  rw [List.dropWhile_append_of_pos hrun]
  cases rest with
  | nil => rfl
  | cons c rest => rw [List.dropWhile_cons_of_neg (by simp [hrest c rfl])]

/-- Runs of one kind of characters can be told from what follows them. -/
theorem run_append_inj (hrun : ∀ c ∈ run, p c = true) (hrest : EndsRun p rest)
    (hrun' : ∀ c ∈ run', p c = true) (hrest' : EndsRun p rest')
    (h : run ++ rest = run' ++ rest') : run = run' ∧ rest = rest' := by
  constructor
  · rw [← takeWhile_run hrun hrest, h, takeWhile_run hrun' hrest']
  · rw [← dropWhile_run hrun hrest, h, dropWhile_run hrun' hrest']

/-- A run does not start with a character of another kind. -/
theorem run_append_ne_cons {c : Char} {more : List Char} (hne : run ≠ [])
    (hrun : ∀ c ∈ run, p c = true) (hc : p c = false) : run ++ rest ≠ c :: more := by
  intro h
  cases run with
  | nil => exact hne rfl
  | cons d run =>
      have hd := hrun d List.mem_cons_self
      rw [(List.cons.inj h).1, hc] at hd
      cases hd

end run

section separator

variable {c sep : Char} {cs rest : List Char}

/-- Without the separator all characters belong to one run. -/
theorem ne_of_notMem (h : sep ∉ cs) : ∀ c ∈ cs, decide (c ≠ sep) = true := by
  intro c hc
  refine decide_eq_true ?_
  rintro rfl
  exact h hc

theorem endsRun_separator : EndsRun (fun c => decide (c ≠ sep)) (sep :: rest) :=
  endsRun_cons (by simp)

/-- A text in which a separator is found is cut in two at the first one. -/
theorem eq_append_separator (h : cs.dropWhile (fun c => decide (c ≠ sep)) = c :: rest) :
    cs = cs.takeWhile (fun c => decide (c ≠ sep)) ++ sep :: rest := by
  have hcut := List.takeWhile_append_dropWhile (p := fun c => decide (c ≠ sep)) (l := cs)
  have hhead := List.head?_dropWhile_not (fun c => decide (c ≠ sep)) cs
  rw [h] at hcut hhead
  obtain rfl : c = sep := by simpa using hhead
  exact hcut.symm

end separator

namespace Descriptor

/-! ## Numbers -/

/-- Numbers are written in digits only. -/
theorem isDigit_of_mem_digits {n : Nat} : ∀ c ∈ digits n, c.isDigit = true := by
  intro c hc
  exact Nat.isDigit_of_mem_toDigits (by decide) (by decide) hc

theorem digits_ne_nil (n : Nat) : digits n ≠ [] := Nat.toDigits_ne_nil

/-- The digits of a number are read as that number. -/
theorem number?_digits (n : Nat) : number? (digits n) = some n := by
  have hempty : (digits n).isEmpty = false := by
    rw [List.isEmpty_eq_false_iff]
    exact digits_ne_nil n
  have hdigits : ((digits n).any fun c => !c.isDigit) = false := by
    rw [List.any_eq_false]
    intro c hc
    simp [isDigit_of_mem_digits c hc]
  have hvalue : (digits n).foldl (fun n c => n * 10 + (c.toNat - 48)) 0 = n := by
    have h : Nat.ofDigitChars 10 (digits n) 0 = n := Nat.ofDigitChars_ten_toDigits
    rw [Nat.ofDigitChars_eq_foldl] at h
    simp only [Nat.mul_comm 10] at h
    exact h
  rw [number?, hempty, hdigits, hvalue]
  rfl

/-- No two numbers are written alike. -/
theorem digits_inj {m n : Nat} (h : digits m = digits n) : m = n := by
  have hm := number?_digits m
  rw [h, number?_digits] at hm
  exact (Option.some.inj hm).symm

/-- Digits may stand in a word, so a number and a word can run together. -/
theorem isAlphanum_of_isDigit {c : Char} (h : c.isDigit = true) : c.isAlphanum = true := by
  rw [Char.isAlphanum, h, Bool.or_true]

/-! ## Normal forms -/

/-- The array of a type, of a fixed length or of any.  Arrays of bytes are byte strings. -/
def array (t : Descriptor) : Option Nat → Descriptor
  | none => if t = byte then dynamicBytes else dynamicArray t
  | some n => if t = byte then staticBytes n else staticArray t n

mutual

/-- The type with structs as tuples and arrays of bytes as byte strings, at every depth. -/
def normal : Descriptor → Descriptor
  | staticArray t n => array (normal t) (some n)
  | dynamicArray t => array (normal t) none
  | tuple ts => tuple (normalTypes ts)
  | struct _ fs => tuple (normalFields fs)
  | t => t

/-- The normal forms of a row of types. -/
def normalTypes : List Descriptor → List Descriptor
  | [] => []
  | t :: ts => normal t :: normalTypes ts

/-- The normal forms of the types of a row of named types. -/
def normalFields : List (String × Descriptor) → List Descriptor
  | [] => []
  | (_, t) :: fs => normal t :: normalFields fs

end

theorem normalTypes_eq (ts : List Descriptor) : normalTypes ts = ts.map normal := by
  induction ts with
  | nil => rfl
  | cons t ts ih => rw [normalTypes, ih, List.map_cons]

theorem normalFields_eq (fs : List (String × Descriptor)) :
    normalFields fs = (fs.map Prod.snd).map normal := by
  induction fs with
  | nil => rfl
  | cons f fs ih => rw [normalFields, ih, List.map_cons, List.map_cons]

theorem nameLists_eq (ts : List Descriptor) : nameLists ts = ts.map nameChars := by
  induction ts with
  | nil => rfl
  | cons t ts ih => rw [nameLists, ih, List.map_cons]

theorem fieldNameLists_eq (fs : List (String × Descriptor)) :
    fieldNameLists fs = (fs.map Prod.snd).map nameChars := by
  induction fs with
  | nil => rfl
  | cons f fs ih => rw [fieldNameLists, ih, List.map_cons, List.map_cons]

section components

variable {t : Descriptor} {ts : List Descriptor}

/-- The name of a row of types. -/
theorem nameChars_of_components (h : t.components? = some ts) :
    t.nameChars = parenthesized (ts.map nameChars) := by
  cases t with
  | tuple us =>
      cases h
      rw [nameChars, nameLists_eq]
  | struct a fs =>
      cases h
      rw [nameChars, fieldNameLists_eq]
  | _ => cases h

/-- The normal form of a row of types. -/
theorem normal_of_components (h : t.components? = some ts) :
    t.normal = tuple (ts.map normal) := by
  cases t with
  | tuple us =>
      cases h
      rw [normal, normalTypes_eq]
  | struct a fs =>
      cases h
      rw [normal, normalFields_eq]
  | _ => cases h

/-- The types inside a tuple or struct are its components. -/
theorem inner_of_components (h : t.components? = some ts) : t.inner = ts := by
  cases t with
  | tuple us => exact Option.some.inj h
  | struct a fs => exact Option.some.inj h
  | _ => cases h

end components

/-! ## Brackets -/

/-- The brackets behind the type of the elements of an array. -/
def bracket : Option Nat → List Char
  | none => ['[', ']']
  | some n => '[' :: digits n ++ [']']

/-- A static array is named by its element and its length in brackets, also when the element is a
    byte. -/
theorem nameChars_staticArray (t : Descriptor) (n : Nat) :
    (staticArray t n).nameChars = t.nameChars ++ bracket (some n) := by
  rw [nameChars, bracket, List.cons_append, List.append_assoc, List.cons_append]

/-- A dynamic array is named by its element and empty brackets, also when the element is a byte. -/
theorem nameChars_dynamicArray (t : Descriptor) :
    (dynamicArray t).nameChars = t.nameChars ++ bracket none := by
  rw [nameChars, bracket]

/-- Putting bytes together to a byte string makes no difference to the name. -/
theorem nameChars_array (t : Descriptor) (length : Option Nat) :
    (array t length).nameChars = t.nameChars ++ bracket length := by
  by_cases ht : t = byte
  · subst ht
    cases length with
    | none => rfl
    | some n => rfl
  · cases length with
    | none => rw [array, if_neg ht, nameChars_dynamicArray]
    | some n => rw [array, if_neg ht, nameChars_staticArray]

/-- A type has the name of its normal form. -/
theorem nameChars_normal (t : Descriptor) : t.normal.nameChars = t.nameChars := by
  induction t using inductOn with
  | step t ih =>
      have hrow : ∀ {ts}, t.components? = some ts → t.normal.nameChars = t.nameChars := by
        intro ts hts
        rw [normal_of_components hts, nameChars_of_components hts, nameChars, nameLists_eq,
          List.map_map]
        refine congrArg parenthesized (List.map_congr_left ?_)
        intro c hc
        exact ih c (by rw [inner_of_components hts]; exact hc)
      cases t with
      | staticArray t n =>
          rw [normal, nameChars_array, ih t (List.mem_singleton_self t), nameChars_staticArray]
      | dynamicArray t =>
          rw [normal, nameChars_array, ih t (List.mem_singleton_self t), nameChars_dynamicArray]
      | tuple ts => exact hrow rfl
      | struct a fs => exact hrow rfl
      | _ => rfl

/-! ## Stems -/

/-- The type that is left of a type inside all arrays. -/
def stem : Descriptor → Descriptor
  | staticArray t _ | dynamicArray t => stem t
  | dynamicBytes | staticBytes _ => byte
  | t => t

/-- The lengths of the arrays around the stem of a type, the innermost first. -/
def suffixes : Descriptor → List (Option Nat)
  | staticArray t n => suffixes t ++ [some n]
  | dynamicArray t => suffixes t ++ [none]
  | dynamicBytes => [none]
  | staticBytes n => [some n]
  | _ => []

/-- A name is that of the stem, followed by the brackets from the inside out. -/
theorem nameChars_eq_stem (t : Descriptor) :
    t.nameChars = t.stem.nameChars ++ t.suffixes.flatMap bracket := by
  fun_induction stem t with
  | case1 t n ih =>
      rw [nameChars_staticArray, suffixes, List.flatMap_append, ← List.append_assoc, ← ih,
        List.flatMap_singleton]
  | case2 t ih =>
      rw [nameChars_dynamicArray, suffixes, List.flatMap_append, ← List.append_assoc, ← ih,
        List.flatMap_singleton]
  | case3 => rfl
  | case4 n => simp [nameChars, suffixes, bracket]
  | case5 t hstatic hdynamic hbytes hfixed =>
      rw [suffixes, List.flatMap_nil, List.append_nil] <;> assumption

/-- The normal form is built from that of the stem, bracket by bracket. -/
theorem normal_eq_stem (t : Descriptor) : t.normal = t.suffixes.foldl array t.stem.normal := by
  fun_induction stem t with
  | case1 t n ih => rw [normal, suffixes, List.foldl_append, ← ih]; rfl
  | case2 t ih => rw [normal, suffixes, List.foldl_append, ← ih]; rfl
  | case3 => rfl
  | case4 n => rfl
  | case5 t hstatic hdynamic hbytes hfixed =>
      rw [suffixes, List.foldl_nil] <;> assumption

/-- The stem is no larger, so that statements about stems follow by induction on size. -/
theorem sizeOf_stem (t : Descriptor) : sizeOf t.stem ≤ sizeOf t := by
  fun_induction stem t with
  | case1 t n ih => rw [staticArray.sizeOf_spec]; omega
  | case2 t ih => rw [dynamicArray.sizeOf_spec]; omega
  | case3 => exact Nat.le_refl _
  | case4 n => rw [byte.sizeOf_spec, staticBytes.sizeOf_spec]; omega
  | case5 t hstatic hdynamic hbytes hfixed => exact Nat.le_refl _

/-- Whether the name is a single word. -/
def isWord : Descriptor → Bool
  | bool | uint _ | ufixed _ _ | byte | address | string => true
  | account | asset | application => true
  | _ => false

/-- The stem of a type is a word or a row. -/
theorem stem_cases (t : Descriptor) :
    t.stem.isWord = true ∨ ∃ ts, t.stem.components? = some ts := by
  fun_induction stem t with
  | case1 t n ih => exact ih
  | case2 t ih => exact ih
  | case3 => exact Or.inl rfl
  | case4 n => exact Or.inl rfl
  | case5 t hstatic hdynamic hbytes hfixed =>
      cases t with
      | tuple ts => exact Or.inr ⟨ts, rfl⟩
      | struct a fs => exact Or.inr ⟨fs.map Prod.snd, rfl⟩
      | staticArray t n => exact (hstatic t n rfl).elim
      | dynamicArray t => exact (hdynamic t rfl).elim
      | dynamicBytes => exact (hbytes rfl).elim
      | staticBytes n => exact (hfixed n rfl).elim
      | _ => exact Or.inl rfl

section word

variable {a b : Descriptor}

/-- The name of a word type is one run of letters and digits. -/
theorem isAlphanum_of_mem_word (ha : a.isWord = true) :
    ∀ c ∈ a.nameChars, c.isAlphanum = true := by
  have hdigits : ∀ n, ∀ c ∈ digits n, c.isAlphanum = true := fun n c hc =>
    isAlphanum_of_isDigit (isDigit_of_mem_digits c hc)
  cases a with
  | uint bits =>
      have hfront : ∀ c ∈ ['u', 'i', 'n', 't'], c.isAlphanum = true := List.all_eq_true.mp rfl
      exact List.forall_mem_append.mpr ⟨hfront, hdigits bits⟩
  | ufixed bits places =>
      have hfront : ∀ c ∈ ['u', 'f', 'i', 'x', 'e', 'd'], c.isAlphanum = true :=
        List.all_eq_true.mp rfl
      exact List.forall_mem_append.mpr ⟨List.forall_mem_append.mpr ⟨hfront, hdigits bits⟩,
        List.forall_mem_cons.mpr ⟨by decide, hdigits places⟩⟩
  | staticBytes n => cases ha
  | dynamicBytes => cases ha
  | staticArray t n => cases ha
  | dynamicArray t => cases ha
  | tuple ts => cases ha
  | struct n fs => cases ha
  | _ => exact List.all_eq_true.mp rfl

theorem word_ne_nil (ha : a.isWord = true) : a.nameChars ≠ [] := by
  cases a <;> simp [isWord] at ha <;> simp [nameChars]

/-- Words differ in their names. -/
theorem eq_of_word (ha : a.isWord = true) (hb : b.isWord = true)
    (h : a.nameChars = b.nameChars) : a = b := by
  cases a <;> simp [isWord] at ha <;> cases b <;> simp [isWord] at hb <;>
    simp [nameChars] at h ⊢
  case uint.uint m n => exact digits_inj h
  case ufixed.ufixed m p n q =>
      obtain ⟨hdigits, hrest⟩ := run_append_inj isDigit_of_mem_digits (endsRun_cons (by decide))
        isDigit_of_mem_digits (endsRun_cons (by decide)) h
      exact ⟨digits_inj hdigits, digits_inj (List.cons.inj hrest).2⟩

/-- A word type is in normal form. -/
theorem normal_word (ha : a.isWord = true) : a.normal = a := by
  cases a <;> simp [isWord] at ha <;> rfl

end word

/-! ## Rows -/

/-- The names that follow the first of a row, with the closing parenthesis. -/
def rowEnd (ts : List Descriptor) : List Char := ts.flatMap (fun t => ',' :: t.nameChars) ++ [')']

/-- A row with a first component is that component behind a parenthesis, and the rest of the row. -/
theorem parenthesized_cons (t : Descriptor) (ts : List Descriptor) :
    parenthesized ((t :: ts).map nameChars) = '(' :: (t.nameChars ++ rowEnd ts) := by
  have hnames : ∀ (t : Descriptor) (ts : List Descriptor),
      List.intercalate [','] ((t :: ts).map nameChars)
        = t.nameChars ++ ts.flatMap fun t => ',' :: t.nameChars := by
    intro t ts
    induction ts generalizing t with
    | nil => simp
    | cons u us ih =>
        rw [List.map_cons, List.map_cons, List.intercalate_cons_cons, ← List.map_cons, ih,
          List.flatMap_cons]
        simp
  rw [parenthesized, hnames, rowEnd, List.cons_append, List.append_assoc]

theorem parenthesized_nil_append (r : List Char) :
    parenthesized (([] : List Descriptor).map nameChars) ++ r = '(' :: ')' :: r := rfl

theorem parenthesized_cons_append (t : Descriptor) (ts : List Descriptor) (r : List Char) :
    parenthesized ((t :: ts).map nameChars) ++ r = '(' :: (t.nameChars ++ (rowEnd ts ++ r)) := by
  rw [parenthesized_cons, List.cons_append, List.append_assoc]

theorem rowEnd_nil_append (r : List Char) : rowEnd [] ++ r = ')' :: r := rfl

/-- Behind a component either a comma and the next one or the closing parenthesis follows. -/
theorem rowEnd_cons_append (t : Descriptor) (ts : List Descriptor) (r : List Char) :
    rowEnd (t :: ts) ++ r = ',' :: (t.nameChars ++ (rowEnd ts ++ r)) := by
  simp [rowEnd]

/-- A name starts with a letter or an opening parenthesis. -/
theorem exists_nameChars_eq_cons (t : Descriptor) :
    ∃ c cs, t.nameChars = c :: cs ∧ (c = '(' ∨ c.isAlphanum = true) := by
  rw [nameChars_eq_stem]
  rcases stem_cases t with hword | ⟨ts, hts⟩
  · have halphanum := isAlphanum_of_mem_word hword
    cases hname : t.stem.nameChars with
    | nil => exact absurd hname (word_ne_nil hword)
    | cons c cs =>
        rw [hname] at halphanum
        exact ⟨c, _, List.cons_append, Or.inr (halphanum c List.mem_cons_self)⟩
  · rw [nameChars_of_components hts, parenthesized]
    exact ⟨'(', _, rfl, Or.inl rfl⟩

/-- No name starts with another character. -/
theorem nameChars_append_ne_cons {t : Descriptor} {c : Char} {rest more : List Char}
    (hc : c.isAlphanum = false) (hopen : c ≠ '(') : t.nameChars ++ rest ≠ c :: more := by
  intro h
  obtain ⟨d, cs, hname, hd⟩ := exists_nameChars_eq_cons t
  rw [hname] at h
  rw [(List.cons.inj h).1, hc] at hd
  rcases hd with hd | hd
  · exact hopen hd
  · cases hd

/-! ## Names tell what follows them -/

/-- Whether a text does not go on with a letter, a digit or a bracket, so that a name in front
    of it is complete. -/
def Stops (rest : List Char) : Prop := ∀ c ∈ rest.head?, c.isAlphanum = false ∧ c ≠ '['

theorem stops_nil : Stops [] := by
  intro c hc
  cases hc

theorem stops_cons {c : Char} {rest : List Char} (halphanum : c.isAlphanum = false)
    (hbracket : c ≠ '[') : Stops (c :: rest) := by
  intro d hd
  cases hd
  exact ⟨halphanum, hbracket⟩

/-- What may follow a name ends a run of letters and digits. -/
theorem Stops.endsRun {rest : List Char} (h : Stops rest) : EndsRun Char.isAlphanum rest :=
  fun c hc => (h c hc).1

section legible

variable {a b : Descriptor} {ts us : List Descriptor} {r s : List Char}

/-- What stands behind a component of a row does not belong to its name. -/
theorem stops_rowEnd : Stops (rowEnd ts ++ r) := by
  cases ts with
  | nil => exact stops_cons (by decide) (by decide)
  | cons t ts => exact stops_cons (by decide) (by decide)

/-- Brackets end the name of a stem, and so does what follows where there are none. -/
theorem endsRun_brackets (lengths : List (Option Nat)) (hr : Stops r) :
    EndsRun Char.isAlphanum (lengths.flatMap bracket ++ r) := by
  cases lengths with
  | nil => exact hr.endsRun
  | cons length lengths =>
      cases length with
      | none => exact endsRun_cons (by decide)
      | some n => exact endsRun_cons (by decide)

/-- A bracket is told from the next one by its length and what follows it. -/
theorem bracket_append_inj {m n : Option Nat} (h : bracket m ++ r = bracket n ++ s) :
    m = n ∧ r = s := by
  have hdigit : ∀ n : Nat, ∃ c cs, digits n = c :: cs ∧ c ≠ ']' := by
    intro n
    cases hn : digits n with
    | nil => exact absurd hn (digits_ne_nil n)
    | cons c cs =>
        refine ⟨c, cs, rfl, ?_⟩
        rintro rfl
        have hc := isDigit_of_mem_digits (n := n) ']' (by rw [hn]; exact List.mem_cons_self)
        revert hc
        decide
  cases m with
  | none =>
      cases n with
      | none => exact ⟨rfl, by simpa [bracket] using h⟩
      | some n =>
          obtain ⟨c, cs, hn, hc⟩ := hdigit n
          simp [bracket, hn, hc.symm] at h
  | some m =>
      cases n with
      | none =>
          obtain ⟨c, cs, hm, hc⟩ := hdigit m
          simp [bracket, hm, hc] at h
      | some n =>
          simp only [bracket, List.cons_append, List.append_assoc, List.cons.injEq, true_and,
            List.nil_append] at h
          obtain ⟨hdigits, hrest⟩ := run_append_inj isDigit_of_mem_digits
            (endsRun_cons (by decide)) isDigit_of_mem_digits (endsRun_cons (by decide)) h
          exact ⟨congrArg some (digits_inj hdigits), (List.cons.inj hrest).2⟩

/-- Rows of brackets are told apart, by induction on them, when no other bracket follows. -/
theorem brackets_append_inj {ls ms : List (Option Nat)} (hr : Stops r) (hs : Stops s)
    (h : ls.flatMap bracket ++ r = ms.flatMap bracket ++ s) : ls = ms ∧ r = s := by
  have hopen : ∀ length : Option Nat, ∃ cs, bracket length = '[' :: cs := by
    intro length
    cases length with
    | none => exact ⟨_, rfl⟩
    | some n => exact ⟨_, rfl⟩
  induction ls generalizing ms with
  | nil =>
      cases ms with
      | nil => exact ⟨rfl, h⟩
      | cons m ms =>
          obtain ⟨cs, hcs⟩ := hopen m
          rw [List.flatMap_cons, hcs] at h
          exact absurd rfl (hr '[' (by rw [show r = _ from h]; rfl)).2
  | cons l ls ih =>
      cases ms with
      | nil =>
          obtain ⟨cs, hcs⟩ := hopen l
          rw [List.flatMap_cons, hcs] at h
          exact absurd rfl (hs '[' (by rw [← show _ = s from h]; rfl)).2
      | cons m ms =>
          rw [List.flatMap_cons, List.flatMap_cons, List.append_assoc, List.append_assoc] at h
          obtain ⟨rfl, hrest⟩ := bracket_append_inj h
          obtain ⟨rfl, hend⟩ := ih hrest
          exact ⟨rfl, hend⟩

/-- Whether the normal form of a type can be told from each text that starts with its name. -/
def Legible (t : Descriptor) : Prop :=
  ∀ (u : Descriptor) (r s : List Char), Stops r → Stops s →
    t.nameChars ++ r = u.nameChars ++ s → t.normal = u.normal ∧ r = s

/-- Rows of legible types with the same text have the same normal forms, and the same follows
    them. -/
theorem rowEnd_append_inj (hts : ∀ t ∈ ts, t.Legible) (h : rowEnd ts ++ r = rowEnd us ++ s) :
    ts.map normal = us.map normal ∧ r = s := by
  induction ts generalizing us with
  | nil =>
      cases us with
      | nil => exact ⟨rfl, (List.cons.inj h).2⟩
      | cons u us => exact absurd (List.cons.inj h).1 (by decide)
  | cons t ts ih =>
      cases us with
      | nil => exact absurd (List.cons.inj h).1 (by decide)
      | cons u us =>
          rw [rowEnd_cons_append, rowEnd_cons_append] at h
          obtain ⟨ht, h⟩ := hts t List.mem_cons_self u _ _ stops_rowEnd stops_rowEnd
            (List.cons.inj h).2
          obtain ⟨htail, h⟩ := ih (fun c hc => hts c (List.mem_cons_of_mem _ hc)) h
          exact ⟨by rw [List.map_cons, List.map_cons, ht, htail], h⟩

/-- Rows in parentheses are told apart as rows are. -/
theorem parenthesized_append_inj (hts : ∀ t ∈ ts, t.Legible)
    (h : parenthesized (ts.map nameChars) ++ r = parenthesized (us.map nameChars) ++ s) :
    ts.map normal = us.map normal ∧ r = s := by
  cases ts with
  | nil =>
      cases us with
      | nil =>
          rw [parenthesized_nil_append, parenthesized_nil_append] at h
          exact ⟨rfl, (List.cons.inj (List.cons.inj h).2).2⟩
      | cons u us =>
          rw [parenthesized_nil_append, parenthesized_cons_append] at h
          exact absurd (List.cons.inj h).2.symm
            (nameChars_append_ne_cons (by decide) (by decide))
  | cons t ts =>
      cases us with
      | nil =>
          rw [parenthesized_cons_append, parenthesized_nil_append] at h
          exact absurd (List.cons.inj h).2
            (nameChars_append_ne_cons (by decide) (by decide))
      | cons u us =>
          rw [parenthesized_cons_append, parenthesized_cons_append] at h
          obtain ⟨ht, h⟩ := hts t List.mem_cons_self u _ _ stops_rowEnd stops_rowEnd
            (List.cons.inj h).2
          obtain ⟨htail, h⟩ := rowEnd_append_inj
            (fun c hc => hts c (List.mem_cons_of_mem _ hc)) h
          exact ⟨by rw [List.map_cons, List.map_cons, ht, htail], h⟩

/-- Stems can be told from what follows them, if the components of rows can. -/
theorem stem_append_inj (hinner : ∀ c ∈ a.stem.inner, c.Legible)
    (hr : EndsRun Char.isAlphanum r) (hs : EndsRun Char.isAlphanum s)
    (h : a.stem.nameChars ++ r = b.stem.nameChars ++ s) :
    a.stem.normal = b.stem.normal ∧ r = s := by
  have hopen : ∀ {t : Descriptor} {cs ds : List Char}, t.isWord = true →
      t.nameChars ++ cs ≠ '(' :: ds := fun hword =>
    run_append_ne_cons (word_ne_nil hword) (isAlphanum_of_mem_word hword) (by decide)
  rcases stem_cases a with hword | ⟨ts, hts⟩
  · rcases stem_cases b with hword' | ⟨us, hus⟩
    · obtain ⟨hname, hrest⟩ := run_append_inj (isAlphanum_of_mem_word hword) hr
        (isAlphanum_of_mem_word hword') hs h
      rw [eq_of_word hword hword' hname]
      exact ⟨rfl, hrest⟩
    · rw [nameChars_of_components hus] at h
      exact absurd h (hopen hword)
  · rw [nameChars_of_components hts] at h
    rcases stem_cases b with hword' | ⟨us, hus⟩
    · exact absurd h.symm (hopen hword')
    · rw [nameChars_of_components hus] at h
      rw [inner_of_components hts] at hinner
      obtain ⟨hrow, hrest⟩ := parenthesized_append_inj hinner h
      rw [normal_of_components hts, normal_of_components hus, hrow]
      exact ⟨rfl, hrest⟩

end legible

/-- The normal form of a type can be told from each text that starts with its name. -/
theorem legible (t : Descriptor) : t.Legible := by
  intro u r s hr hs h
  have hinner : ∀ c ∈ t.stem.inner, c.Legible := fun c hc => legible c
  rw [nameChars_eq_stem t, nameChars_eq_stem u, List.append_assoc, List.append_assoc] at h
  obtain ⟨hstem, h⟩ := stem_append_inj hinner (endsRun_brackets _ hr) (endsRun_brackets _ hs) h
  obtain ⟨hsuffixes, h⟩ := brackets_append_inj hr hs h
  rw [normal_eq_stem t, normal_eq_stem u, hstem, hsuffixes]
  exact ⟨rfl, h⟩
termination_by sizeOf t
decreasing_by exact Nat.lt_of_lt_of_le (sizeOf_inner hc) (sizeOf_stem t)

/-! ## Equal names -/

variable {a b : Descriptor}

/-- NAMES AND NORMAL FORMS: two types have one name exactly if they have one normal form. -/
theorem name_eq_iff : a.name = b.name ↔ a.normal = b.normal := by
  constructor
  · intro h
    have hchars : a.nameChars ++ [] = b.nameChars ++ [] := by
      rw [String.ofList_injective h]
    exact (legible a b [] [] stops_nil stops_nil hchars).1
  · intro h
    rw [name, name, ← nameChars_normal a, h, nameChars_normal]

/-- Types have one shape exactly when they have one normal form. -/
theorem sameShape_iff : a.sameShape b = true ↔ a.normal = b.normal := by
  rw [sameShape, Bool.or_eq_true, decide_eq_true_iff, beq_iff_eq, name_eq_iff]
  constructor
  · rintro (rfl | h)
    · rfl
    · exact h
  · exact Or.inr

/-- A type and its normal form have one name, in text as in characters. -/
theorem name_normal (t : Descriptor) : t.normal.name = t.name := by
  rw [name, name, nameChars_normal]

/-- A normal form is its own. -/
theorem normal_normal (t : Descriptor) : t.normal.normal = t.normal :=
  name_eq_iff.mp (name_normal t)

/-- A type has the shape of its normal form. -/
theorem sameShape_normal (t : Descriptor) : t.sameShape t.normal = true :=
  sameShape_iff.mpr (normal_normal t).symm

end Descriptor

end AvmSandbox
