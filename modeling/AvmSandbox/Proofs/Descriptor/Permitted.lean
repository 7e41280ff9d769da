import AvmSandbox.Proofs.Descriptor.Padding
import AvmSandbox.Proofs.Descriptor.Reading

/-! # Permitted numbers — what is read is permitted

    The reader of type names checks the numbers as it meets them: bit widths and
    decimal places when a word is read, and lengths when a bracket is closed.  So
    every type that is read has permitted numbers at every depth, and its name
    is read as that type again.

    * `permitted_of_ofWord` and `permitted_of_parseSuffixes` are about words and
      brackets;
    * `permitted_of_parse` is about whole texts. -/

namespace AvmSandbox

namespace Descriptor

variable {t u : Descriptor}

/-! ## Words -/

/-- The check on widths is that on whole bytes between the least and the greatest width. -/
theorem widthPermitted_of_checkWidth {bits : Nat} (h : checkWidth bits = .ok ()) :
    (uint bits).WidthPermitted := by
  rw [checkWidth] at h
  split at h
  · cases h
  · refine ⟨?_, ?_, ?_⟩ <;> omega

/-- An integer type is read with a checked width. -/
theorem permitted_of_uintOf {bits : Nat} (h : uintOf bits = .ok t) : t.Permitted := by
  obtain ⟨_, hwidth, ht⟩ := bind_eq_ok_iff.mp h
  rw [← Except.ok.inj ht]
  exact .of_leaf rfl (widthPermitted_of_checkWidth hwidth)

theorem permitted_of_ufixedOf {bits places : Nat} (h : ufixedOf bits places = .ok t) :
    t.Permitted := by
  obtain ⟨_, hwidth, ht⟩ := bind_eq_ok_iff.mp h
  by_cases hplaces : places = 0 ∨ places > Limits.precision
  · rw [if_pos hplaces] at ht
    cases ht
  · rw [if_neg hplaces] at ht
    rw [← Except.ok.inj ht]
    exact .of_leaf rfl ⟨widthPermitted_of_checkWidth hwidth, by omega, by omega⟩

/-- A word names a type of its own or an integer type, and no other. -/
theorem permitted_of_ofWord {word left : List Char} (h : ofWord word left = .ok t) :
    t.Permitted := by
  have hword : ∀ u : Descriptor, u.inner = [] → u.NumbersPermitted →
      (.ok u : Except Stop Descriptor) = .ok t → t.Permitted := by
    intro u hu hnumbers ht
    rw [← Except.ok.inj ht]
    exact .of_leaf hu hnumbers
  rw [ofWord] at h
  split at h
  · exact hword bool rfl trivial h
  split at h
  · exact hword byte rfl trivial h
  split at h
  · exact hword address rfl trivial h
  split at h
  · exact hword string rfl trivial h
  split at h
  · exact hword account rfl trivial h
  split at h
  · exact hword asset rfl trivial h
  split at h
  · exact hword application rfl trivial h
  split at h
  · cases h
  split at h
  · split at h
    · cases h
    split at h
    · cases h
    split at h
    · cases h
    exact permitted_of_ufixedOf (ok_of_mapError h)
  · split at h
    · split at h
      · cases h
      exact permitted_of_uintOf (ok_of_mapError h)
    · cases h

/-! ## Brackets -/

/-- A length in brackets is read as a number of 64 bits. -/
theorem permitted_of_arrayOf {inside left : List Char} (ht : t.Permitted)
    (h : arrayOf t inside left = .ok u) : u.Permitted := by
  rw [arrayOf] at h
  split at h
  · rw [← Except.ok.inj h]
    split
    · exact .of_leaf rfl trivial
    · exact .of_single rfl trivial ht
  · split at h
    · cases h
    · next n hn =>
        have hlt : n < Limits.length := by
          have hle := (Option.filter_eq_some_iff.mp hn).2
          have hpos : 0 < Limits.length := by decide
          have hle : n ≤ Limits.length - 1 := of_decide_eq_true hle
          omega
        rw [← Except.ok.inj h]
        split
        · exact .of_leaf rfl hlt
        · exact .of_single rfl hlt ht

/-- Brackets behind a permitted type make permitted types. -/
theorem permitted_of_parseSuffixes {inside : Option (List Char)} {cs rest : List Char}
    (ht : t.Permitted) (h : parseSuffixes t inside cs = .ok (u, rest)) : u.Permitted := by
  induction cs generalizing t inside with
  | nil =>
      cases inside with
      | none =>
          cases h
          exact ht
      | some ds => cases h
  | cons c cs ih =>
      cases inside with
      | none =>
          rw [parseSuffixes] at h
          split at h
          · exact ih ht h
          · cases h
            exact ht
      | some ds =>
          rw [parseSuffixes] at h
          split at h
          · exact ih ht h
          · split at h
            · split at h
              · cases h
              · next v hv => exact ih (permitted_of_arrayOf ht hv) h
            · cases h

/-! ## Types -/

/-- Whether types that are read off a text are permitted. -/
def TypesPermitted (fuel : Nat) : Prop := ∀ cs t rest, parseType fuel cs = .ok (t, rest) →
  t.Permitted

/-- The same for rows. -/
def RowsPermitted (fuel : Nat) : Prop := ∀ cs ts rest, parseRow fuel cs = .ok (ts, rest) →
  ∀ t ∈ ts, t.Permitted

/-- The same for the rest of a row. -/
def RestsPermitted (fuel : Nat) : Prop := ∀ done cs ts rest,
  parseMore fuel done cs = .ok (ts, rest) → (∀ t ∈ done, t.Permitted) → ∀ t ∈ ts, t.Permitted

section steps

variable {fuel : Nat}

/-- A type is a word or a row, followed by brackets. -/
theorem typesPermitted_succ (hrows : RowsPermitted fuel) : TypesPermitted (fuel + 1) := by
  intro cs t rest h
  rw [parseType.eq_def] at h
  dsimp only at h
  split at h
  · obtain ⟨⟨ts, more⟩, hrow, hsuffixes⟩ := bind_eq_ok_iff.mp h
    have htuple : (tuple ts).Permitted := .intro trivial (hrows _ ts more hrow)
    exact permitted_of_parseSuffixes htuple hsuffixes
  · obtain ⟨u, hword, hsuffixes⟩ := bind_eq_ok_iff.mp h
    exact permitted_of_parseSuffixes (permitted_of_ofWord hword) hsuffixes

/-- Behind a component the rest of its row is read with less fuel. -/
theorem restsPermitted_succ (htypes : TypesPermitted fuel) (hrests : RestsPermitted fuel) :
    RestsPermitted (fuel + 1) := by
  intro done cs ts rest h hdone
  rw [parseMore.eq_def] at h
  dsimp only at h
  split at h
  · obtain ⟨⟨t, more⟩, htype, hmore⟩ := bind_eq_ok_iff.mp h
    exact hrests _ more ts rest hmore (List.forall_mem_cons.mpr ⟨htypes _ t more htype, hdone⟩)
  · cases h
    simpa using hdone
  · cases h

/-- A row is empty or a component and the rest of the row. -/
theorem rowsPermitted_succ (htypes : TypesPermitted fuel) (hrests : RestsPermitted fuel) :
    RowsPermitted (fuel + 1) := by
  intro cs ts rest h
  rw [parseRow.eq_def] at h
  dsimp only at h
  split at h
  · cases h
    simp
  · obtain ⟨⟨t, more⟩, htype, hmore⟩ := bind_eq_ok_iff.mp h
    exact hrests _ more ts rest hmore (List.forall_mem_singleton.mpr (htypes _ t more htype))

end steps

/-- What the reader takes off a text is permitted. -/
theorem permitted_of_fuel (fuel : Nat) :
    TypesPermitted fuel ∧ RowsPermitted fuel ∧ RestsPermitted fuel := by
  induction fuel with
  | zero =>
      refine ⟨?_, ?_, ?_⟩
      · intro cs t rest h
        cases h
      · intro cs ts rest h
        cases h
      · intro done cs ts rest h
        cases h
  | succ fuel ih =>
      obtain ⟨htypes, hrows, hrests⟩ := ih
      exact ⟨typesPermitted_succ hrows, rowsPermitted_succ htypes hrests,
        restsPermitted_succ htypes hrests⟩

/-- **WHAT IS READ IS PERMITTED**: every number in a type that is read from a text is one that the
    format allows. -/
theorem permitted_of_parse {text : String} (h : parse text = .ok t) : t.Permitted := by
  simp only [parse] at h
  split at h
  · next u hu =>
      cases h
      obtain ⟨⟨v, rest⟩, hread, hend⟩ := bind_eq_ok_iff.mp hu
      dsimp only at hend
      split at hend
      · cases hend
        exact (permitted_of_fuel _).1 _ _ _ hread
      · cases hend
  · cases h
  · cases h

end Descriptor

end AvmSandbox
