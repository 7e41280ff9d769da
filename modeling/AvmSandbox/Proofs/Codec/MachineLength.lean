import AvmSandbox.Descriptor.MachineLength
import AvmSandbox.Proofs.Codec.ExactLength
import AvmSandbox.Proofs.Descriptor.Permitted

/-! # Machine lengths — how far 64 bits go

    A machine adds lengths up in 64 bits.  Where it comes to an end it has found
    the length of the type, which then is the number of its bytes or, where an
    array does not fit, absent.  It stops at a tuple or struct when the sum over
    its components does not fit.

    * `sumFrom_cons`: what a sum does at one component;
    * `machineLength_eq_ok`, `machineLength_lt`: what the machine finds;
    * `Oversums` and `machineLength_eq_error_iff`: where it stops. -/

namespace AvmSandbox

/-! ## Sums -/

theorem addLengths_eq_ok_iff {a b c : Nat} :
    addLengths a b = .ok c ↔ a + b < Limits.length ∧ c = a + b := by
  rw [addLengths]
  split
  · next h =>
      rw [Except.ok.injEq]
      exact ⟨fun hc => ⟨h, hc.symm⟩, fun hc => hc.2.symm⟩
  · next h =>
      constructor
      · intro hc
        cases hc
      · intro hc
        exact absurd hc.1 h

theorem addLengths_eq_error_iff {a b : Nat} {e : Fault} :
    addLengths a b = .error e ↔ Limits.length ≤ a + b ∧ e = .lengthOverflow := by
  rw [addLengths]
  split
  · next h =>
      constructor
      · intro hc
        cases hc
      · intro hc
        exact absurd h (Nat.not_lt.mpr hc.1)
  · next h =>
      rw [Except.error.injEq]
      exact ⟨fun hc => ⟨Nat.not_lt.mp h, hc.symm⟩, fun hc => hc.2.symm⟩

namespace Descriptor

variable {t c : Descriptor} {ts : List Descriptor} {indexed : Bool} {n total run : Nat}

/-! ## Rows -/

theorem fieldShares_eq (indexed : Bool) (fs : List (String × Descriptor)) :
    fieldShares indexed fs = shares indexed (fs.map Prod.snd) := by
  induction fs with
  | nil => rw [fieldShares, List.map_nil, shares]
  | cons f fs ih =>
      obtain ⟨name, t⟩ := f
      rw [fieldShares, List.map_cons, shares, ih]

theorem machineLength_of_components (h : t.components? = some ts) :
    t.machineLength indexed = sumFrom 0 0 (shares indexed ts) := by
  cases t with
  | tuple us =>
      cases h
      rw [machineLength]
  | struct a fs =>
      cases h
      rw [machineLength, fieldShares_eq]
  | _ => cases h

theorem machineLength_of_isMeasured (ht : t.isMeasured = true) :
    t.machineLength indexed = .ok (t.length? indexed) := by
  cases t with
  | staticArray c n =>
      have hb : c.isBool = true := ht
      rw [machineLength, length?, if_pos hb, if_pos hb]
  | tuple _ | struct _ _ => cases ht
  | _ => rw [machineLength] <;> simp

/-! ## What the machine finds -/

/-- What a component adds to a row behind `run` bits of a byte, and how many bits of a byte are
    then behind. -/
inductive Adds (indexed : Bool) (t : Descriptor) (run : Nat) : Nat → Nat → Prop where
  | bit (hb : t.isBool = true) : Adds indexed t run (if run = 0 then 1 else 0) ((run + 1) % 8)
  | whole {width : Nat} (hb : t.isBool = false)
      (hwidth : t.machineLength indexed = .ok (some width)) : Adds indexed t run width 0

/-- A sum goes on behind a component, or ends as that has ended. -/
theorem sumFrom_cons (indexed : Bool) (total run : Nat) (t : Descriptor) (ts : List Descriptor) :
    (∃ width run', Adds indexed t run width run' ∧
      sumFrom total run (shares indexed (t :: ts)) =
        addLengths total width >>= fun total => sumFrom total run' (shares indexed ts)) ∨
    t.isBool = false ∧ (t.machineLength indexed = .ok none ∧
        sumFrom total run (shares indexed (t :: ts)) = .ok none ∨
      ∃ e, t.machineLength indexed = .error e ∧
        sumFrom total run (shares indexed (t :: ts)) = .error e) := by
  rw [shares, shareOf]
  cases hb : t.isBool with
  | true => exact .inl ⟨_, _, .bit hb, rfl⟩
  | false =>
      cases h : t.machineLength indexed with
      | error e => exact .inr ⟨rfl, .inr ⟨e, rfl, rfl⟩⟩
      | ok found =>
          cases found with
          | none => exact .inr ⟨rfl, .inl ⟨rfl, rfl⟩⟩
          | some width => exact .inl ⟨width, 0, .whole hb h, rfl⟩

/-- What a component adds to the sum is what it adds to the length. -/
theorem Adds.rowLength_eq {width run' : Nat} (h : Adds indexed t run width run')
    (hsound : ∀ {r}, t.machineLength indexed = .ok r → r = t.length? indexed) :
    rowLength run (widths indexed (t :: ts)) =
      (rowLength run' (widths indexed ts)).map fun n => width + n := by
  rw [widths]
  cases h with
  | bit hb => rw [widthOf_of_isBool hb, rowLength]
  | whole hb hwidth => rw [← hsound hwidth, widthOf_some hb, rowLength]

theorem sum_eq_ok_iff {width run' : Nat} {r : Option Nat} {shares : List Share} :
    (addLengths total width >>= fun total => sumFrom total run' shares) = .ok r ↔
      total + width < Limits.length ∧ sumFrom (total + width) run' shares = .ok r := by
  simp only [bind_eq_ok_iff, addLengths_eq_ok_iff]
  constructor
  · rintro ⟨_, ⟨hlt, rfl⟩, h⟩
    exact ⟨hlt, h⟩
  · rintro ⟨hlt, h⟩
    exact ⟨_, ⟨hlt, rfl⟩, h⟩

/-- The sum over a row, if the machine comes to its end, is the length of the row. -/
theorem sumFrom_eq_ok {r : Option Nat}
    (hts : ∀ t ∈ ts, ∀ {r}, t.machineLength indexed = .ok r → r = t.length? indexed)
    (h : sumFrom total run (shares indexed ts) = .ok r) :
    r = (rowLength run (widths indexed ts)).map fun n => total + n := by
  induction ts generalizing total run with
  | nil => exact (Except.ok.inj h).symm
  | cons t ts ih =>
      rw [List.forall_mem_cons] at hts
      obtain ⟨width, run', hadds, hsum⟩ | ⟨hb, ⟨hnone, hsum⟩ | ⟨e, -, hsum⟩⟩ :=
        sumFrom_cons indexed total run t ts
      · rw [hsum, sum_eq_ok_iff] at h
        rw [hadds.rowLength_eq hts.1, ih hts.2 h.2, Option.map_map]
        congr 1
        funext n
        exact Nat.add_assoc total width n
      · rw [hsum] at h
        rw [widths, ← hts.1 hnone, widthOf_none hb, rowLength, ← Except.ok.inj h]
        rfl
      · rw [hsum] at h
        cases h

/-- **WHAT THE MACHINE FINDS IS THE LENGTH.** -/
theorem machineLength_eq_ok {r : Option Nat} (h : t.machineLength indexed = .ok r) :
    r = t.length? indexed := by
  induction t using Descriptor.inductOn generalizing r with
  | step t ih =>
      obtain ht | ⟨c, count, rfl, hb⟩ | ⟨ts, hts⟩ := cases_of_length t
      · rw [machineLength_of_isMeasured ht] at h
        exact (Except.ok.inj h).symm
      · rw [machineLength, if_neg (by simp [hb])] at h
        obtain ⟨found, hfound, h⟩ := bind_eq_ok_iff.mp h
        rw [length?, if_neg (by simp [hb]), ← ih c (List.mem_singleton_self c) hfound]
        exact (Except.ok.inj h).symm
      · rw [machineLength_of_components hts] at h
        rw [length?_of_components hts,
          sumFrom_eq_ok (fun c hc _ => ih c (inner_of_components hts ▸ hc)) h]
        simp

/-- The sum over a row fits in 64 bits if what is counted already does. -/
theorem sumFrom_lt (hlt : total < Limits.length)
    (h : sumFrom total run (shares indexed ts) = .ok (some n)) : n < Limits.length := by
  induction ts generalizing total run with
  | nil =>
      cases h
      exact hlt
  | cons t ts ih =>
      obtain ⟨width, run', -, hsum⟩ | ⟨-, ⟨-, hsum⟩ | ⟨e, -, hsum⟩⟩ :=
        sumFrom_cons indexed total run t ts
      · rw [hsum, sum_eq_ok_iff] at h
        exact ih h.1 h.2
      · rw [hsum] at h
        cases h
      · rw [hsum] at h
        cases h

/-- **WHAT THE MACHINE FINDS FITS IN 64 BITS** when the numbers in the type do. -/
theorem machineLength_lt (ht : t.NumbersPermitted) (h : t.machineLength indexed = .ok (some n)) :
    n < Limits.length := by
  have hbits : Limits.uintBits < Limits.length := by decide
  cases hts : t.components? with
  | some ts =>
      rw [machineLength_of_components hts] at h
      exact sumFrom_lt (by decide) h
  | none =>
      have hn := machineLength_eq_ok h
      cases t with
      -- a product that reaches the bound gives no length
      | staticArray c count =>
          have ht : count < Limits.length := ht
          rw [length?] at hn
          split at hn
          · cases hn
            omega
          · obtain ⟨w, -, hn⟩ := Option.bind_eq_some_iff.mp hn.symm
            split at hn
            · cases hn
              assumption
            · cases hn
      | tuple _ | struct _ _ => cases hts
      | staticBytes k =>
          cases hn
          exact ht
      | uint bits =>
          cases hn
          have hmax := ht.2.1
          omega
      | ufixed bits places =>
          cases hn
          have hmax := ht.1.2.1
          omega
      | account | asset | application =>
          cases hn
          cases indexed <;> decide
      | string | dynamicBytes | dynamicArray _ => simp [length?] at hn
      | _ =>
          cases hn
          decide

/-! ## Where the machine stops -/

/-- Whether the sum over some beginning of a tuple or struct, within the components and elements
    that have to be measured, does not fit in 64 bits. -/
inductive Oversums (indexed : Bool) : Descriptor → Prop where
  | sum {t : Descriptor} {front rest : List Descriptor} {n : Nat}
      (hts : t.components? = some (front ++ rest))
      (hn : rowLength 0 (widths indexed front) = some n) (hlong : Limits.length ≤ n) :
      Oversums indexed t
  | component {t c : Descriptor} {front rest : List Descriptor} {n : Nat}
      (hts : t.components? = some (front ++ c :: rest))
      (hn : rowLength 0 (widths indexed front) = some n) (hc : Oversums indexed c) :
      Oversums indexed t
  | element {c : Descriptor} {count : Nat} (hc : Oversums indexed c) :
      Oversums indexed (staticArray c count)

theorem oversums_staticArray_iff {count : Nat} :
    Oversums indexed (staticArray c count) ↔ Oversums indexed c := by
  constructor
  · intro h
    cases h with
    | sum hts => cases hts
    | component hts => cases hts
    | element hc => exact hc
  · exact .element

/-- Whether the sum over a row does not fit, when `total` bytes are counted and `run` bits are in
    the current byte. -/
def RowOversums (indexed : Bool) (total run : Nat) (ts : List Descriptor) : Prop :=
  ∃ front rest n, ts = front ++ rest ∧ rowLength run (widths indexed front) = some n ∧
    (Limits.length ≤ total + n ∨ ∃ c more, rest = c :: more ∧ Oversums indexed c)

theorem oversums_iff_of_components (hts : t.components? = some ts) :
    Oversums indexed t ↔ RowOversums indexed 0 0 ts := by
  constructor
  · intro h
    cases h with
    | sum hfront hn hlong =>
        cases hts.symm.trans hfront
        exact ⟨_, _, _, rfl, hn, .inl (by omega)⟩
    | component hfront hn hc =>
        cases hts.symm.trans hfront
        exact ⟨_, _, _, rfl, hn, .inr ⟨_, _, rfl, hc⟩⟩
    | element => cases hts
  · rintro ⟨front, rest, n, rfl, hn, hlong | ⟨c, more, rfl, hc⟩⟩
    · exact .sum hts hn (by omega)
    · exact .component hts hn hc

theorem not_oversums_of_isMeasured (ht : t.isMeasured = true) : ¬Oversums indexed t := by
  have hrow : ∀ {ts}, t.components? ≠ some ts := by
    intro ts hts
    cases t with
    | tuple _ | struct _ _ => cases ht
    | _ => cases hts
  intro h
  induction h with
  | sum hts => exact hrow hts
  | component hts => exact hrow hts
  | element hc =>
      rw [eq_bool_of_isBool ht] at hc
      cases hc with
      | sum hts => cases hts
      | component hts => cases hts

/-- The sum over a row does not fit where that behind its first component does not. -/
theorem rowOversums_cons_iff {width run' : Nat} (hadds : Adds indexed t run width run')
    (hfits : ¬Oversums indexed t) (hlt : total < Limits.length) :
    RowOversums indexed total run (t :: ts) ↔
      Limits.length ≤ total + width ∨ RowOversums indexed (total + width) run' ts := by
  constructor
  · rintro ⟨front, rest, n, hts, hn, h⟩
    cases front with
    | nil =>
        cases hn
        rcases h with h | ⟨c, more, rfl, hc⟩
        · omega
        · cases hts
          exact absurd hc hfits
    | cons first front =>
        cases hts
        rw [hadds.rowLength_eq machineLength_eq_ok] at hn
        obtain ⟨m, hm, rfl⟩ := Option.map_eq_some_iff.mp hn
        refine .inr ⟨front, rest, m, rfl, hm, ?_⟩
        rwa [Nat.add_assoc]
  · rintro (hlong | ⟨front, rest, m, rfl, hm, h⟩)
    · refine ⟨[t], ts, width, rfl, ?_, .inl hlong⟩
      rw [hadds.rowLength_eq machineLength_eq_ok]
      rfl
    · refine ⟨t :: front, rest, width + m, rfl, ?_, ?_⟩
      · rw [hadds.rowLength_eq machineLength_eq_ok, hm, Option.map_some]
      · rwa [← Nat.add_assoc]

/-- Behind a component without a length nothing is summed. -/
theorem not_rowOversums_cons (hb : t.isBool = false) (hnone : t.length? indexed = none)
    (hfits : ¬Oversums indexed t) (hlt : total < Limits.length) :
    ¬RowOversums indexed total run (t :: ts) := by
  rintro ⟨front, rest, n, hts, hn, h⟩
  cases front with
  | nil =>
      cases hn
      rcases h with h | ⟨c, more, rfl, hc⟩
      · omega
      · cases hts
        exact hfits hc
  | cons first front =>
      cases hts
      rw [widths, hnone, widthOf_none hb] at hn
      cases hn

theorem sum_eq_error_iff {width run' : Nat} {e : Fault} {shares : List Share} :
    (addLengths total width >>= fun total => sumFrom total run' shares) = .error e ↔
      Limits.length ≤ total + width ∧ e = .lengthOverflow ∨
        total + width < Limits.length ∧ sumFrom (total + width) run' shares = .error e := by
  cases hsum : addLengths total width with
  | ok next =>
      obtain ⟨hlt, rfl⟩ := addLengths_eq_ok_iff.mp hsum
      rw [ok_bind]
      constructor
      · exact fun h => .inr ⟨hlt, h⟩
      · rintro (⟨hle, -⟩ | ⟨-, h⟩)
        · omega
        · exact h
  | error e' =>
      obtain ⟨hle, rfl⟩ := addLengths_eq_error_iff.mp hsum
      constructor
      · intro h
        cases h
        exact .inl ⟨hle, rfl⟩
      · rintro (⟨-, rfl⟩ | ⟨hlt, -⟩)
        · rfl
        · omega

/-- The machine stops in a row where a sum does not fit. -/
theorem sumFrom_eq_error_iff {e : Fault} (hlt : total < Limits.length)
    (hts : ∀ t ∈ ts, ∀ e, t.machineLength indexed = .error e ↔
      e = .lengthOverflow ∧ Oversums indexed t) :
    sumFrom total run (shares indexed ts) = .error e ↔
      e = .lengthOverflow ∧ RowOversums indexed total run ts := by
  induction ts generalizing total run with
  | nil =>
      constructor
      · intro h
        cases h
      · rintro ⟨-, front, rest, n, hts, hn, h⟩
        obtain ⟨rfl, rfl⟩ := List.append_eq_nil_iff.mp hts.symm
        cases hn
        rcases h with h | ⟨c, more, h, -⟩
        · omega
        · cases h
  | cons t ts ih =>
      rw [List.forall_mem_cons] at hts
      have hfits : ∀ {r}, t.machineLength indexed = .ok r → ¬Oversums indexed t := by
        intro r hr h
        rw [(hts.1 _).mpr ⟨rfl, h⟩] at hr
        cases hr
      -- the first component adds to the sum, or has no length, or stops by itself
      obtain ⟨width, run', hadds, hsum⟩ | ⟨hb, ⟨hnone, hsum⟩ | ⟨e', he', hsum⟩⟩ :=
        sumFrom_cons indexed total run t ts
      · have hfits : ¬Oversums indexed t := by
          cases hadds with
          | bit hb => exact not_oversums_of_isMeasured (by rw [eq_bool_of_isBool hb]; rfl)
          | whole _ hwidth => exact hfits hwidth
        rw [hsum, sum_eq_error_iff, rowOversums_cons_iff hadds hfits hlt]
        -- the sum passes the bound here or further on
        by_cases hnext : total + width < Limits.length
        · rw [ih hnext hts.2]
          constructor
          · rintro (⟨hle, -⟩ | ⟨-, he, h⟩)
            · omega
            · exact ⟨he, .inr h⟩
          · rintro ⟨he, hle | h⟩
            · omega
            · exact .inr ⟨hnext, he, h⟩
        · constructor
          · rintro (⟨hle, he⟩ | ⟨h, -⟩)
            · exact ⟨he, .inl hle⟩
            · exact absurd h hnext
          · exact fun h => .inl ⟨Nat.not_lt.mp hnext, h.1⟩
      · rw [hsum]
        constructor
        · intro h
          cases h
        · rintro ⟨-, h⟩
          exact absurd h (not_rowOversums_cons hb (machineLength_eq_ok hnone).symm (hfits hnone) hlt)
      · obtain ⟨rfl, hover⟩ := (hts.1 e').mp he'
        rw [hsum]
        constructor
        · intro h
          cases h
          exact ⟨rfl, [], t :: ts, 0, rfl, rfl, .inr ⟨t, ts, rfl, hover⟩⟩
        · rintro ⟨rfl, -⟩
          rfl

/-- **THE MACHINE STOPS** exactly where it has to add up a sum that does not fit. -/
theorem machineLength_eq_error_iff {e : Fault} :
    t.machineLength indexed = .error e ↔ e = .lengthOverflow ∧ Oversums indexed t := by
  induction t using Descriptor.inductOn generalizing e with
  | step t ih =>
      obtain ht | ⟨c, count, rfl, hb⟩ | ⟨ts, hts⟩ := cases_of_length t
      · rw [machineLength_of_isMeasured ht]
        constructor
        · intro h
          cases h
        · exact fun h => absurd h.2 (not_oversums_of_isMeasured ht)
      · rw [oversums_staticArray_iff, ← ih c (List.mem_singleton_self c), machineLength, if_neg (by simp [hb])]
        cases c.machineLength indexed with
        | ok found =>
            constructor
            · intro h
              cases h
            · intro h
              cases h
        | error e' => exact Iff.rfl
      · rw [machineLength_of_components hts, oversums_iff_of_components hts]
        exact sumFrom_eq_error_iff (by decide) fun c hc e => ih c (inner_of_components hts ▸ hc)

end Descriptor

end AvmSandbox
