import AvmSandbox.Proofs.Descriptor.Spelling

/-! # Reading — names are read as normal forms

    The reader descends along the text of a name: a word, or a row between
    parentheses, and then the brackets.  On the name of a type whose numbers are
    permitted it never stops before the end, and what it makes of the name is the
    normal form of the type.

    * `Permitted`: the types whose names the reader takes;
    * `ReadsName`: what the reader makes of a name, whatever follows it;
    * `readsName_of_isWord`, `readsName_of_components` and `ReadsName.bracketed`:
      words, rows and brackets;
    * `readsName_of_permitted` and `parse_name`: all names of permitted types;
    * `name_roundtrip`: what the name of a type says about the type. -/

namespace AvmSandbox

namespace Descriptor

/-! ## Types whose names are read -/

/-- Whether the numbers in a type are permitted by themselves: widths and precisions are those
    of the protocol, and lengths are machine words. -/
def NumbersPermitted : Descriptor → Prop
  | uint bits => (uint bits).WidthPermitted
  | ufixed bits places =>
      (ufixed bits places).WidthPermitted ∧ 1 ≤ places ∧ places ≤ Limits.precision
  | staticBytes n | staticArray _ n => n < Limits.length
  | _ => True

/-- A type whose numbers are permitted at every depth. -/
def Permitted : Descriptor → Prop := Throughout NumbersPermitted

/-! ## Numbers and words -/

theorem numberUpTo?_digits {max n : Nat} (h : n ≤ max) : numberUpTo? max (digits n) = some n := by
  rw [numberUpTo?, number?_digits, Option.filter_some, if_pos (by simpa using h)]

theorem checkWidth_of_permitted {bits : Nat} (h : (uint bits).WidthPermitted) :
    checkWidth bits = .ok () := by
  obtain ⟨hmin, hmax, hbytes⟩ := h
  rw [checkWidth, if_neg (by omega)]

/-- Words are read as the types they name. -/
theorem ofWord_nameChars {t : Descriptor} (hword : t.isWord = true) (ht : t.NumbersPermitted)
    (left : List Char) : ofWord t.nameChars left = .ok t := by
  cases t with
  | uint bits =>
      have hbits : bits ≤ 65535 := Nat.le_trans ht.2.1 (by decide)
      have hafter : after? ['u', 'i', 'n', 't'] (uint bits).nameChars = some (digits bits) := rfl
      have hufixed : after? ['u', 'f', 'i', 'x', 'e', 'd'] (uint bits).nameChars = none := rfl
      have huint : uintOf bits = .ok (uint bits) := by
        rw [uintOf, checkWidth_of_permitted ht]
        rfl
      simp only [ofWord, hafter, hufixed, numberUpTo?_digits hbits, huint]
      simp [nameChars, Except.mapError]
  | ufixed bits places =>
      obtain ⟨hwidth, hmin, hmax⟩ := ht
      have hbits : bits ≤ 65535 := Nat.le_trans hwidth.2.1 (by decide)
      have hplaces : places ≤ 255 := Nat.le_trans hmax (by decide)
      have hafter : after? ['u', 'f', 'i', 'x', 'e', 'd'] (ufixed bits places).nameChars
          = some (digits bits ++ 'x' :: digits places) := rfl
      -- the first `x` behind the word is the one between the numbers
      have hx : 'x' ∉ digits bits := fun hx => absurd (isDigit_of_mem_digits 'x' hx) (by decide)
      have hufixed : ufixedOf bits places = .ok (ufixed bits places) := by
        rw [ufixedOf, checkWidth_of_permitted hwidth]
        show (do
          if places = 0 ∨ places > Limits.precision then throw (.precision places)
          return ufixed bits places : Except DescriptorError Descriptor) = _
        rw [if_neg (by omega)]
        rfl
      simp only [ofWord, hafter, takeWhile_run (ne_of_notMem hx) endsRun_separator,
        dropWhile_run (ne_of_notMem hx) endsRun_separator, List.drop_one,
        List.tail_cons, numberUpTo?_digits hbits, numberUpTo?_digits hplaces, hufixed]
      simp [nameChars, Except.mapError]
  | staticBytes n => cases hword
  | dynamicBytes => cases hword
  | staticArray t n => cases hword
  | dynamicArray t => cases hword
  | tuple ts => cases hword
  | struct n fs => cases hword
  | _ => simp [ofWord, nameChars]

/-! ## Brackets -/

/-- The digits between brackets are collected. -/
theorem parseSuffixes_digits {t : Descriptor} {run before rest : List Char}
    (hrun : ∀ c ∈ run, c.isDigit = true) :
    parseSuffixes t (some before) (run ++ rest)
      = parseSuffixes t (some (run.reverse ++ before)) rest := by
  induction run generalizing before with
  | nil => rfl
  | cons c run ih =>
      rw [List.cons_append, parseSuffixes, if_pos (hrun c List.mem_cons_self),
        ih fun d hd => hrun d (List.mem_cons_of_mem _ hd)]
      simp

theorem parseSuffixes_none (t : Descriptor) (rest : List Char) :
    parseSuffixes t none (bracket none ++ rest) = parseSuffixes (array t none) none rest := by
  simp [bracket, parseSuffixes, arrayOf, array]

theorem parseSuffixes_some (t : Descriptor) {n : Nat} (hn : n < Limits.length)
    (rest : List Char) :
    parseSuffixes t none (bracket (some n) ++ rest)
      = parseSuffixes (array t (some n)) none rest := by
  have harray : arrayOf t (digits n) rest = .ok (array t (some n)) := by
    rw [arrayOf, numberUpTo?_digits (by omega)]
    simp [array, digits_ne_nil]
  have hopen : bracket (some n) ++ rest = '[' :: (digits n ++ ']' :: rest) := by simp [bracket]
  have hclose : (']' : Char).isDigit = false := by decide
  rw [hopen, parseSuffixes, if_pos rfl, parseSuffixes_digits isDigit_of_mem_digits]
  simp only [parseSuffixes, hclose, List.append_nil, List.reverse_reverse, harray]
  rfl

/-- Where no bracket follows, the type is complete. -/
theorem parseSuffixes_of_stops (t : Descriptor) {rest : List Char} (h : Stops rest) :
    parseSuffixes t none rest = .ok (t, rest) := by
  cases rest with
  | nil => rfl
  | cons c rest => rw [parseSuffixes, if_neg (h c rfl).2]

/-! ## Types -/

/-- A word is cut off and read as a type, to which the brackets that follow belong. -/
theorem parseType_word {fuel : Nat} {word rest : List Char} {t : Descriptor} (hne : word ≠ [])
    (hword : ∀ c ∈ word, c.isAlphanum = true) (hrest : EndsRun Char.isAlphanum rest)
    (ht : ofWord word rest = .ok t) :
    parseType (fuel + 1) (word ++ rest) = parseSuffixes t none rest := by
  rw [parseType, takeWhile_run hword hrest, dropWhile_run hword hrest, ht]
  · rfl
  · intro more
    exact run_append_ne_cons hne hword (by decide)

/-- A row between parentheses is read as a tuple, to which the brackets that follow belong. -/
theorem parseType_row {fuel : Nat} {cs rest : List Char} {ts : List Descriptor}
    (hrow : parseRow fuel cs = .ok (ts, rest)) :
    parseType (fuel + 1) ('(' :: cs) = parseSuffixes (tuple ts) none rest := by
  rw [parseType, hrow]
  rfl

/-- Whether a name is read as the normal form of a type, to which the brackets that follow
    belong. -/
def ReadsName (t : Descriptor) : Prop :=
  ∀ fuel rest, t.nameChars.length ≤ fuel → EndsRun Char.isAlphanum rest →
    parseType fuel (t.nameChars ++ rest) = parseSuffixes t.normal none rest

section row

variable {t : Descriptor} {ts done : List Descriptor} {fuel : Nat} {rest : List Char}

theorem ReadsName.component (h : t.ReadsName) (hfuel : t.nameChars.length ≤ fuel) :
    parseType fuel (t.nameChars ++ (rowEnd ts ++ rest)) = .ok (t.normal, rowEnd ts ++ rest) := by
  rw [h fuel _ hfuel stops_rowEnd.endsRun, parseSuffixes_of_stops _ stops_rowEnd]

theorem parseMore_rowEnd (hts : ∀ t ∈ ts, t.ReadsName) (hfuel : (rowEnd ts).length ≤ fuel) :
    parseMore fuel done (rowEnd ts ++ rest) = .ok (done.reverse ++ ts.map normal, rest) := by
  induction ts generalizing fuel done with
  | nil =>
      obtain ⟨fuel, rfl⟩ : ∃ k, fuel = k + 1 := ⟨fuel - 1, by simp [rowEnd] at hfuel; omega⟩
      rw [rowEnd_nil_append, parseMore, List.map_nil, List.append_nil]
      rfl
  | cons t ts ih =>
      have hlength : (rowEnd (t :: ts)).length = 1 + t.nameChars.length + (rowEnd ts).length := by
        simp [rowEnd]
        omega
      obtain ⟨fuel, rfl⟩ : ∃ k, fuel = k + 1 := ⟨fuel - 1, by omega⟩
      rw [rowEnd_cons_append, parseMore, (hts t List.mem_cons_self).component (by omega)]
      show parseMore fuel (t.normal :: done) (rowEnd ts ++ rest) = _
      rw [ih (fun c hc => hts c (List.mem_cons_of_mem _ hc)) (by omega)]
      simp

theorem parseType_parenthesized (hts : ∀ t ∈ ts, t.ReadsName)
    (hfuel : (parenthesized (ts.map nameChars)).length ≤ fuel) :
    parseType fuel (parenthesized (ts.map nameChars) ++ rest)
      = parseSuffixes (tuple (ts.map normal)) none rest := by
  cases ts with
  | nil =>
      obtain ⟨fuel, rfl⟩ : ∃ k, fuel = k + 2 := ⟨fuel - 2, by
        simp [parenthesized] at hfuel
        omega⟩
      rw [parenthesized_nil_append]
      exact parseType_row (by rw [parseRow]; rfl)
  | cons t ts =>
      rw [parenthesized_cons, List.length_cons, List.length_append] at hfuel
      have hlength : (rowEnd ts).length ≠ 0 := by simp [rowEnd]
      have hlength' : t.nameChars.length ≠ 0 := by
        obtain ⟨c, cs, hname, -⟩ := exists_nameChars_eq_cons t
        rw [hname]
        simp
      obtain ⟨fuel, rfl⟩ : ∃ k, fuel = k + 2 := ⟨fuel - 2, by omega⟩
      rw [parenthesized_cons_append]
      refine parseType_row ?_
      rw [parseRow, (hts t List.mem_cons_self).component (by omega)]
      · show parseMore fuel [t.normal] (rowEnd ts ++ rest) = _
        rw [parseMore_rowEnd (fun c hc => hts c (List.mem_cons_of_mem _ hc)) (by omega)]
        rfl
      · intro more
        exact nameChars_append_ne_cons (by decide) (by decide)

end row

theorem readsName_of_isWord {t : Descriptor} (hword : t.isWord = true)
    (ht : t.NumbersPermitted) : t.ReadsName := by
  intro fuel rest hfuel hrest
  obtain ⟨fuel, rfl⟩ : ∃ k, fuel = k + 1 := ⟨fuel - 1, by
    have hpos := List.length_pos_iff.mpr (word_ne_nil hword)
    omega⟩
  rw [normal_word hword]
  exact parseType_word (word_ne_nil hword) (isAlphanum_of_mem_word hword) hrest
    (ofWord_nameChars hword ht rest)

theorem readsName_of_components {t : Descriptor} {ts : List Descriptor}
    (hts : t.components? = some ts) (h : ∀ c ∈ ts, c.ReadsName) : t.ReadsName := by
  intro fuel rest hfuel hrest
  rw [nameChars_of_components hts] at hfuel ⊢
  rw [normal_of_components hts]
  exact parseType_parenthesized h hfuel

/-- A name with brackets behind it is read if the name without them is. -/
theorem ReadsName.bracketed {t u : Descriptor} (hu : u.ReadsName) (length : Option Nat)
    (hlength : ∀ n ∈ length, n < Limits.length)
    (hname : t.nameChars = u.nameChars ++ bracket length)
    (hnormal : t.normal = array u.normal length) : t.ReadsName := by
  intro fuel rest hfuel hrest
  rw [hname, List.length_append] at hfuel
  have hend : EndsRun Char.isAlphanum (bracket length ++ rest) := by
    cases length with
    | none => exact endsRun_cons (by decide)
    | some n => exact endsRun_cons (by decide)
  rw [hname, hnormal, List.append_assoc, hu fuel _ (by omega) hend]
  cases length with
  | none => exact parseSuffixes_none _ _
  | some n => exact parseSuffixes_some _ (hlength n rfl) _

/-- **NAMES ARE READ**: the name of a permitted type is read as its normal form. -/
theorem readsName_of_permitted {t : Descriptor} (ht : t.Permitted) : t.ReadsName := by
  have hbyte : byte.ReadsName := readsName_of_isWord rfl trivial
  induction t using inductOn with
  | step t ih =>
      cases t with
      | staticArray t n =>
          have hinner := List.mem_singleton_self t
          refine (ih t hinner (ht.inside hinner)).bracketed (some n) ?_
            (nameChars_staticArray t n) rfl
          intro m hm
          cases hm
          exact ht.here
      | dynamicArray t =>
          have hinner := List.mem_singleton_self t
          refine (ih t hinner (ht.inside hinner)).bracketed none ?_
            (nameChars_dynamicArray t) rfl
          simp
      | staticBytes n =>
          refine hbyte.bracketed (some n) ?_ rfl rfl
          intro m hm
          cases hm
          exact ht.here
      | dynamicBytes =>
          refine hbyte.bracketed none ?_ rfl rfl
          simp
      | tuple ts => exact readsName_of_components rfl fun c hc => ih c hc (ht.inside hc)
      | struct name fs => exact readsName_of_components rfl fun c hc => ih c hc (ht.inside hc)
      | _ => exact readsName_of_isWord rfl ht.here

/-- The name of a permitted type is read to its end. -/
theorem parseType_nameChars {t : Descriptor} (ht : t.Permitted) :
    parseType (2 * t.nameChars.length + 2) t.nameChars = .ok (t.normal, []) := by
  have hread := readsName_of_permitted ht (2 * t.nameChars.length + 2) [] (by omega) endsRun_nil
  rwa [List.append_nil, parseSuffixes_of_stops _ stops_nil] at hread

theorem parse_name {t : Descriptor} (ht : t.Permitted) : parse t.name = .ok t.normal := by
  have hchars : parseChars t.nameChars = .ok t.normal := by
    rw [parseChars, parseType_nameChars ht]
    rfl
  simp only [parse, name, String.toList_ofList, hchars]

/-- **NAMES ROUND TRIP**: the name of a permitted type is read to its end and as the normal form
    of the type, in which structs are tuples and arrays of bytes are byte strings at every depth.
    So two permitted types have one name exactly if they have one normal form. -/
theorem name_roundtrip {t : Descriptor} (ht : t.Permitted) :
    parseType (2 * t.name.toList.length + 2) t.name.toList = .ok (t.normal, []) ∧
      parse t.name = .ok t.normal ∧
      ∀ u : Descriptor, u.Permitted → (t.name = u.name ↔ t.normal = u.normal) := by
  refine ⟨?_, parse_name ht, ?_⟩
  · rw [name, String.toList_ofList]
    exact parseType_nameChars ht
  · intro u hu
    constructor
    · intro hname
      have hread : (.ok t.normal : Result Descriptor) = .ok u.normal := by
        rw [← parse_name ht, ← parse_name hu, hname]
      injection hread
    · intro hnormal
      rw [← name_normal t, ← name_normal u, hnormal]

/-- Three structs of a fixed-point number and byte strings are named like three tuples. -/
theorem name_roundtrip_points :
    let point := struct "Point" [("x", ufixed 64 2), ("tags", dynamicArray (dynamicArray byte))]
    let row := tuple [ufixed 64 2, dynamicArray dynamicBytes]
    (staticArray point 3).name = "(ufixed64x2,byte[][])[3]" ∧
      parse "(ufixed64x2,byte[][])[3]" = .ok (staticArray row 3) ∧
      (staticArray point 3).name = (staticArray row 3).name := by
  intro point row
  have hx : (ufixed 64 2).Permitted :=
    .of_leaf rfl ⟨⟨by decide, by decide, by decide⟩, by decide, by decide⟩
  have htags : (dynamicArray (dynamicArray byte)).Permitted :=
    .of_single rfl trivial (.of_single rfl trivial (.of_leaf rfl trivial))
  have hbytes : (dynamicArray dynamicBytes).Permitted :=
    .of_single rfl trivial (.of_leaf rfl trivial)
  have hlength : 3 < Limits.length := by decide
  have hpoint : (staticArray point 3).Permitted := by
    refine .of_single rfl hlength (.intro trivial ?_)
    intro c hc
    rcases List.mem_pair.mp hc with rfl | rfl
    · exact hx
    · exact htags
  have hrow : (staticArray row 3).Permitted := by
    refine .of_single rfl hlength (.intro trivial ?_)
    intro c hc
    rcases List.mem_pair.mp hc with rfl | rfl
    · exact hx
    · exact hbytes
  obtain ⟨-, hparse, hiff⟩ := name_roundtrip hpoint
  have hname : (staticArray point 3).name = "(ufixed64x2,byte[][])[3]" := by decide +kernel
  refine ⟨hname, ?_, (hiff _ hrow).mpr rfl⟩
  rw [← hname, hparse]
  rfl

end Descriptor

end AvmSandbox
