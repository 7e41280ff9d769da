import AvmSandbox.Proofs.Action
import AvmSandbox.Proofs.Descriptor.Spelling
import Mathlib.Data.List.TakeWhile

/-! # Padding — zeros in front of numbers

    Names are written without them, but the reader of names lets them pass.  It
    takes no other liberty: what it reads is the type that is named by the text
    without such zeros.

    * `unpad` and `Padded`: a text without zeros in front of its numbers, and
      texts that have some;
    * `unpad_number`: a number is named by the digits that are left;
    * `TypesNamed`, `RowsNamed` and `RestsNamed`: what is read of a text and what is
      left of it, for each of the three readers;
    * `named_of_parse`: all of them, by induction on the fuel;
    * `nameChars_of_parse`: a whole text. -/

namespace AvmSandbox

namespace Descriptor

/-! ## Texts without padding -/

/-- Whether a text goes on with a digit. -/
def goesOnWithDigit (rest : List Char) : Bool := rest.head?.any Char.isDigit

/-- A text without the zeros in front of its numbers; `inside` says that a digit of the same
    number stands in front of it. -/
def unpad (inside : Bool) : List Char → List Char
  | [] => []
  | c :: rest =>
      if c = '0' ∧ inside = false ∧ goesOnWithDigit rest = true then unpad false rest
      else c :: unpad c.isDigit rest

/-- Whether a text has a number with a zero in front; `inside` as for `unpad`. -/
inductive Padded : Bool → List Char → Prop where
  | here {rest : List Char} : goesOnWithDigit rest = true → Padded false ('0' :: rest)
  | later {inside : Bool} {c : Char} {rest : List Char} : Padded c.isDigit rest →
      Padded inside (c :: rest)

section unpad

variable {inside : Bool} {c : Char} {cs rest : List Char}

theorem length_unpad_le (inside : Bool) (cs : List Char) :
    (unpad inside cs).length ≤ cs.length := by
  induction cs generalizing inside with
  | nil => exact Nat.le_refl _
  | cons c cs ih =>
      rw [unpad]
      split
      · exact Nat.le_succ_of_le (ih false)
      · exact Nat.succ_le_succ (ih c.isDigit)

/-- Exactly the texts without padding stay as they are. -/
theorem unpad_eq_self_iff : unpad inside cs = cs ↔ ¬Padded inside cs := by
  induction cs generalizing inside with
  | nil =>
      refine iff_of_true rfl ?_
      intro h
      cases h
  | cons c cs ih =>
      rw [unpad]
      by_cases hzero : c = '0' ∧ inside = false ∧ goesOnWithDigit cs = true
      · rw [if_pos hzero]
        obtain ⟨rfl, rfl, hdigit⟩ := hzero
        refine iff_of_false ?_ (not_not.mpr (.here hdigit))
        intro heq
        have hle := length_unpad_le false cs
        rw [heq, List.length_cons] at hle
        omega
      · rw [if_neg hzero, List.cons.injEq, eq_self, true_and, ih]
        refine not_congr ⟨.later, ?_⟩
        intro h
        cases h with
        | here hdigit => exact absurd ⟨rfl, rfl, hdigit⟩ hzero
        | later h => exact h

theorem goesOnWithDigit_of_endsRun (h : EndsRun Char.isDigit rest) :
    goesOnWithDigit rest = false := by
  cases rest with
  | nil => rfl
  | cons c rest => exact h c rfl

/-- A character that is no digit stays, and a number behind it starts anew. -/
theorem unpad_cons (hc : c.isDigit = false) : unpad inside (c :: rest) = c :: unpad false rest := by
  rw [unpad, if_neg, hc]
  rintro ⟨rfl, -⟩
  exact absurd hc (by decide)

/-- Where no number reaches across, two texts lose their zeros by themselves. -/
theorem unpad_append (h : EndsRun Char.isDigit rest) :
    unpad inside (cs ++ rest) = unpad inside cs ++ unpad false rest := by
  induction cs generalizing inside with
  | nil =>
      cases rest with
      | nil => rfl
      | cons c rest => rw [List.nil_append, unpad_cons (h c rfl), unpad_cons (h c rfl)]; rfl
  | cons c cs ih =>
      have hdigit : goesOnWithDigit (cs ++ rest) = goesOnWithDigit cs := by
        cases cs with
        | nil => exact goesOnWithDigit_of_endsRun h
        | cons d cs => rfl
      rw [List.cons_append, unpad, unpad, hdigit, ih, ih]
      split
      · rfl
      · rfl

/-- Inside a number nothing is left out. -/
theorem unpad_run (h : ∀ c ∈ cs, c.isDigit = true) : unpad true cs = cs := by
  induction cs with
  | nil => rfl
  | cons c cs ih =>
      rw [unpad, if_neg (by simp), h c List.mem_cons_self,
        ih fun d hd => h d (List.mem_cons_of_mem _ hd)]

end unpad

/-! ## Numbers -/

/-- The number that digits stand for, behind a number that is already read. -/
def valueFrom (n : Nat) (cs : List Char) : Nat := cs.foldl (fun n c => n * 10 + (c.toNat - 48)) n

/-- A digit is the digit of its value. -/
theorem digitChar_value {c : Char} (h : c.isDigit = true) :
    c.toNat - 48 < 10 ∧ (c.toNat - 48).digitChar = c := by
  have hrange : 48 ≤ c.toNat ∧ c.toNat ≤ 57 := by
    rw [Char.isDigit, Bool.and_eq_true, decide_eq_true_iff, decide_eq_true_iff] at h
    exact h
  have hchars : ∀ k < 10, k.digitChar.toNat = 48 + k := by decide
  have hlt : c.toNat - 48 < 10 := by omega
  refine ⟨hlt, Char.toNat_inj.mp ?_⟩
  rw [hchars _ hlt]
  omega

/-- The digits of a number are those read so far and those that follow. -/
theorem digits_valueFrom {n : Nat} {cs : List Char} (hn : 0 < n)
    (h : ∀ c ∈ cs, c.isDigit = true) : digits (valueFrom n cs) = digits n ++ cs := by
  induction cs generalizing n with
  | nil => rw [List.append_nil]; rfl
  | cons c cs ih =>
      obtain ⟨hlt, hchar⟩ := digitChar_value (h c List.mem_cons_self)
      have hdigits : digits (n * 10 + (c.toNat - 48)) = digits n ++ [c] := by
        rw [digits, Nat.mul_comm, ← Nat.toDigits_append_toDigits (by decide) hn hlt,
          Nat.toDigits_of_lt_base hlt, hchar]
        rfl
      show digits (valueFrom (n * 10 + (c.toNat - 48)) cs) = _
      rw [ih (by omega) fun d hd => h d (List.mem_cons_of_mem _ hd), hdigits, List.append_assoc]
      rfl

/-- The digits of a number are those it is written with, but for the zeros in front. -/
theorem unpad_digits {cs : List Char} (hne : cs ≠ []) (h : ∀ c ∈ cs, c.isDigit = true) :
    unpad false cs = digits (valueFrom 0 cs) := by
  induction cs with
  | nil => exact absurd rfl hne
  | cons c cs ih =>
      obtain ⟨hlt, hchar⟩ := digitChar_value (h c List.mem_cons_self)
      have hcs : ∀ d ∈ cs, d.isDigit = true := fun d hd => h d (List.mem_cons_of_mem _ hd)
      have hvalue : valueFrom 0 (c :: cs) = valueFrom (c.toNat - 48) cs := by
        rw [valueFrom, List.foldl_cons, Nat.zero_mul, Nat.zero_add]
        rfl
      -- a zero goes when a digit follows it, and any other digit ends the zeros
      by_cases hzero : c = '0' ∧ cs ≠ []
      · obtain ⟨rfl, hcs'⟩ := hzero
        have hdigit : goesOnWithDigit cs = true := by
          cases cs with
          | nil => exact absurd rfl hcs'
          | cons d cs => exact hcs d List.mem_cons_self
        rw [unpad, if_pos ⟨rfl, rfl, hdigit⟩, ih hcs' hcs, hvalue]
        rfl
      · have hkeep : unpad false (c :: cs) = c :: cs := by
          rw [unpad, if_neg, h c List.mem_cons_self, unpad_run hcs]
          rintro ⟨rfl, -, hdigit⟩
          refine hzero ⟨rfl, ?_⟩
          rintro rfl
          cases hdigit
        rw [hkeep, hvalue]
        by_cases hpos : 0 < c.toNat - 48
        · rw [digits_valueFrom hpos hcs, digits, Nat.toDigits_of_lt_base hlt, hchar]
          rfl
        · have hc : c = '0' := by
            rw [← hchar, show c.toNat - 48 = 0 by omega]
            rfl
          obtain rfl : cs = [] := not_not.mp fun hcs' => hzero ⟨hc, hcs'⟩
          rw [hc]
          rfl

/-- A number that is read is named by the digits without the zeros in front. -/
theorem unpad_number {cs : List Char} {n : Nat} (h : number? cs = some n) :
    unpad false cs = digits n := by
  rw [number?] at h
  split at h
  · cases h
  · next hok =>
      cases h
      simp only [Bool.or_eq_true, List.isEmpty_iff, List.any_eq_true, Bool.not_eq_true', not_or,
        not_exists, not_and, Bool.not_eq_false] at hok
      exact unpad_digits hok.1 hok.2

theorem number?_of_numberUpTo? {max n : Nat} {cs : List Char} (h : numberUpTo? max cs = some n) :
    number? cs = some n := (Option.filter_eq_some_iff.mp h).1

/-! ## Words -/

theorem eq_append_of_after? {front cs rest : List Char} (h : after? front cs = some rest) :
    cs = front ++ rest := by
  induction front generalizing cs with
  | nil => exact Option.some.inj h
  | cons p front ih =>
      cases cs with
      | nil => cases h
      | cons c cs =>
          rw [after?] at h
          split at h
          · next hp => rw [hp, ih h, List.cons_append]
          · cases h

/-- Letters in front of a text stay. -/
theorem unpad_letters {front rest : List Char} (h : front.any Char.isDigit = false) :
    unpad false (front ++ rest) = front ++ unpad false rest := by
  induction front with
  | nil => rfl
  | cons c front ih =>
      rw [List.any_cons, Bool.or_eq_false_iff] at h
      rw [List.cons_append, unpad_cons h.1, ih h.2, List.cons_append]

theorem eq_of_uintOf {bits : Nat} {t : Descriptor} (h : uintOf bits = .ok t) : t = uint bits := by
  obtain ⟨_, -, ht⟩ := bind_eq_ok_iff.mp h
  exact (Except.ok.inj ht).symm

theorem eq_of_ufixedOf {bits places : Nat} {t : Descriptor} (h : ufixedOf bits places = .ok t) :
    t = ufixed bits places := by
  obtain ⟨_, -, ht⟩ := bind_eq_ok_iff.mp h
  by_cases hplaces : places = 0 ∨ places > Limits.precision
  · rw [if_pos hplaces] at ht
    cases ht
  · rw [if_neg hplaces] at ht
    exact (Except.ok.inj ht).symm

theorem ok_of_mapError {ε ε' α : Type} {f : ε → ε'} {r : Except ε α} {a : α}
    (h : r.mapError f = .ok a) : r = .ok a := by
  cases r with
  | error e => cases h
  | ok b => exact congrArg Except.ok (Except.ok.inj h)

/-- A text that has the separator is cut in two at the first one. -/
theorem eq_cut {rest : List Char} (h : ¬(rest.all fun c => decide (c ≠ 'x')) = true) :
    rest = rest.takeWhile (fun c => decide (c ≠ 'x')) ++
      'x' :: (rest.dropWhile fun c => decide (c ≠ 'x')).drop 1 := by
  cases hdrop : rest.dropWhile fun c => decide (c ≠ 'x') with
  | nil => exact absurd (List.all_eq_true.mpr (List.dropWhile_eq_nil_iff.mp hdrop)) h
  | cons c after => exact eq_append_separator hdrop

/-- A word names the type it is read as, but for zeros in front of numbers. -/
theorem unpad_of_ofWord {word left : List Char} {t : Descriptor} (h : ofWord word left = .ok t) :
    unpad false word = t.nameChars := by
  -- words that stand for a type have no digits at all
  have hnamed : ∀ u : Descriptor, unpad false u.nameChars = u.nameChars → word = u.nameChars →
      (.ok u : Except Stop Descriptor) = .ok t → unpad false word = t.nameChars := by
    intro u hu hword ht
    rw [hword, hu, Except.ok.inj ht]
  rw [ofWord] at h
  split at h
  · exact hnamed bool rfl ‹_› h
  split at h
  · exact hnamed byte rfl ‹_› h
  split at h
  · exact hnamed address rfl ‹_› h
  split at h
  · exact hnamed string rfl ‹_› h
  split at h
  · exact hnamed account rfl ‹_› h
  split at h
  · exact hnamed asset rfl ‹_› h
  split at h
  · exact hnamed application rfl ‹_› h
  split at h
  · cases h
  split at h
  · next rest hrest =>
      split at h
      · cases h
      · next hx =>
          split at h
          · cases h
          · next bits hbits =>
              split at h
              · cases h
              · next places hplaces =>
                  -- the `x` between the two numbers ends the first one
                  obtain rfl := eq_of_ufixedOf (ok_of_mapError h)
                  rw [eq_append_of_after? hrest, unpad_letters rfl, eq_cut hx,
                    unpad_append (endsRun_cons (by decide)), unpad_cons (by decide),
                    unpad_number (number?_of_numberUpTo? hbits),
                    unpad_number (number?_of_numberUpTo? hplaces)]
                  rfl
  · split at h
    · next rest hrest =>
        split at h
        · cases h
        · next bits hbits =>
            obtain rfl := eq_of_uintOf (ok_of_mapError h)
            rw [eq_append_of_after? hrest, unpad_letters rfl,
              unpad_number (number?_of_numberUpTo? hbits)]
            rfl
    · cases h

/-! ## Brackets -/

/-- The length of an array is named by what stands between the brackets. -/
theorem unpad_of_arrayOf {t u : Descriptor} {inside left : List Char}
    (h : arrayOf t inside left = .ok u) :
    u.nameChars = t.nameChars ++ '[' :: (unpad false inside ++ [']']) := by
  rw [arrayOf] at h
  split at h
  · next hempty =>
      rw [List.isEmpty_iff.mp hempty, ← Except.ok.inj h]
      exact nameChars_array t none
  · split at h
    · cases h
    · next n hn =>
        rw [unpad_number (number?_of_numberUpTo? hn), ← Except.ok.inj h]
        exact nameChars_array t (some n)

/-- The text in brackets that is already read. -/
def opened : Option (List Char) → List Char
  | none => []
  | some inside => '[' :: inside.reverse

/-- A type with the brackets that are read behind it has the name of both. -/
theorem unpad_of_parseSuffixes {t u : Descriptor} {inside : Option (List Char)}
    {cs rest : List Char} (h : parseSuffixes t inside cs = .ok (u, rest)) :
    t.nameChars ++ unpad false (opened inside ++ cs) = u.nameChars ++ unpad false rest := by
  induction cs generalizing t inside with
  | nil =>
      cases inside with
      | none =>
          cases h
          rfl
      | some ds => cases h
  | cons c cs ih =>
      cases inside with
      | none =>
          rw [parseSuffixes] at h
          split at h
          · next hopen =>
              rw [hopen]
              exact ih h
          · cases h
            rfl
      | some ds =>
          rw [parseSuffixes] at h
          split at h
          -- one more digit between the brackets
          · have hmore := ih h
            simp only [opened, List.reverse_cons, List.cons_append, List.append_assoc,
              List.nil_append] at hmore ⊢
            exact hmore
          · split at h
            · next hclose =>
                split at h
                · cases h
                · next v hv =>
                    -- the bracket is closed, so its number ends here
                    rw [← ih h, unpad_of_arrayOf hv, hclose]
                    show t.nameChars ++ unpad false ('[' :: (ds.reverse ++ ']' :: cs))
                      = t.nameChars ++ '[' :: (unpad false ds.reverse ++ [']']) ++ unpad false cs
                    rw [unpad_cons (by decide), unpad_append (endsRun_cons (by decide)),
                      unpad_cons (by decide)]
                    simp
            · cases h

/-! ## Types -/

/-- What is left behind a word starts with no digit. -/
theorem endsRun_dropWhile (cs : List Char) :
    EndsRun Char.isDigit (cs.dropWhile Char.isAlphanum) := by
  intro c hc
  have hhead := List.head?_dropWhile_not Char.isAlphanum cs
  rw [hc] at hhead
  simp only [Char.isAlphanum, Bool.or_eq_false_iff] at hhead
  exact hhead.2

/-- Whether what is read off a text as a type is named by it, but for zeros in front of
    numbers. -/
def TypesNamed (fuel : Nat) : Prop := ∀ cs t rest, parseType fuel cs = .ok (t, rest) →
  unpad false cs = t.nameChars ++ unpad false rest

/-- The same for rows, behind their opening parenthesis. -/
def RowsNamed (fuel : Nat) : Prop := ∀ cs ts rest, parseRow fuel cs = .ok (ts, rest) →
  '(' :: unpad false cs = parenthesized (ts.map nameChars) ++ unpad false rest

/-- The same for the rest of a row. -/
def RestsNamed (fuel : Nat) : Prop := ∀ done cs ts rest, parseMore fuel done cs = .ok (ts, rest) →
  ∃ us, ts = done.reverse ++ us ∧ unpad false cs = rowEnd us ++ unpad false rest

section steps

variable {fuel : Nat}

theorem typesNamed_succ (hrows : RowsNamed fuel) : TypesNamed (fuel + 1) := by
  intro cs t rest h
  by_cases hopen : ∃ body, cs = '(' :: body
  · obtain ⟨body, rfl⟩ := hopen
    rw [parseType] at h
    obtain ⟨⟨ts, more⟩, hrow, hsuffixes⟩ := bind_eq_ok_iff.mp h
    rw [unpad_cons (by decide), hrows body ts more hrow, ← unpad_of_parseSuffixes hsuffixes,
      nameChars_of_components (t := tuple ts) rfl]
    rfl
  · rw [parseType] at h
    · obtain ⟨u, hword, hsuffixes⟩ := bind_eq_ok_iff.mp h
      rw [← unpad_of_parseSuffixes hsuffixes, ← unpad_of_ofWord hword]
      show unpad false cs = unpad false (cs.takeWhile Char.isAlphanum) ++
        unpad false (cs.dropWhile Char.isAlphanum)
      rw [← unpad_append (endsRun_dropWhile cs), List.takeWhile_append_dropWhile]
    · intro body hbody
      exact hopen ⟨body, hbody⟩

theorem restsNamed_succ (htypes : TypesNamed fuel) (hrests : RestsNamed fuel) :
    RestsNamed (fuel + 1) := by
  intro done cs ts rest h
  rw [parseMore.eq_def] at h
  simp only at h
  split at h
  · next body =>
      obtain ⟨⟨t, more⟩, htype, hmore⟩ := bind_eq_ok_iff.mp h
      obtain ⟨us, rfl, hus⟩ := hrests (t :: done) more ts rest hmore
      refine ⟨t :: us, by simp, ?_⟩
      rw [unpad_cons (by decide), htypes body t more htype, hus, rowEnd_cons_append]
  · next body =>
      cases h
      exact ⟨[], by simp, by rw [unpad_cons (by decide), rowEnd_nil_append]⟩
  · cases h

theorem rowsNamed_succ (htypes : TypesNamed fuel) (hrests : RestsNamed fuel) :
    RowsNamed (fuel + 1) := by
  intro cs ts rest h
  rw [parseRow.eq_def] at h
  simp only at h
  split at h
  · next body =>
      cases h
      rw [unpad_cons (by decide), parenthesized_nil_append]
  · obtain ⟨⟨t, more⟩, htype, hmore⟩ := bind_eq_ok_iff.mp h
    obtain ⟨us, rfl, hus⟩ := hrests [t] more ts rest hmore
    rw [htypes cs t more htype, hus]
    exact (parenthesized_cons_append t us _).symm

end steps

/-- What the reader takes off a text is named by it, but for zeros in front of numbers. -/
theorem named_of_parse (fuel : Nat) : TypesNamed fuel ∧ RowsNamed fuel ∧ RestsNamed fuel := by
  induction fuel with
  | zero =>
      refine ⟨?_, ?_, ?_⟩
      · intro cs t rest h
        cases h
      · intro cs ts rest h
        cases h
      · intro done cs ts rest h
        cases h
  | succ fuel ih =>
      obtain ⟨htypes, hrows, hrests⟩ := ih
      exact ⟨typesNamed_succ hrows, rowsNamed_succ htypes hrests, restsNamed_succ htypes hrests⟩

/-- **ONLY ZEROS ARE IGNORED**: a type that is read from a text is named by the text without the
    zeros in front of its numbers. -/
theorem nameChars_of_parse {text : String} {t : Descriptor} (h : parse text = .ok t) :
    t.nameChars = unpad false text.toList := by
  simp only [parse] at h
  split at h
  · next u hu =>
      cases h
      obtain ⟨⟨v, rest⟩, hread, hend⟩ := bind_eq_ok_iff.mp hu
      by_cases hrest : rest.isEmpty = true
      · have hnamed := (named_of_parse _).1 _ _ _ hread
        simp only [hrest, if_true] at hend
        cases hend
        rw [hnamed, List.isEmpty_iff.mp hrest]
        exact (List.append_nil _).symm
      · simp only [hrest] at hend
        cases hend
  · cases h
  · cases h

end Descriptor

end AvmSandbox
