import AvmSandbox.Proofs.Codec.Success

/-! # References — indexes keep their meaning

    An index that was handed out names a resource in the arrays of that moment.
    The arrays only ever grow at their ends, so it names the same resource in
    all later ones.

    * `References.Grows` and `Grows`: arrays that were appended to;
    * `accountAt_accountIndex`, `assetAt_assetIndex`,
      `applicationAt_applicationIndex`: an index names what it was asked for,
      then and later;
    * `yields_reference`: how a reference is written. -/

namespace AvmSandbox

namespace References

/-- Whether arrays have only been appended to. -/
structure Grows (before after : References) : Prop where
  sender : after.sender = before.sender
  called : after.called = before.called
  accounts : before.accounts <+: after.accounts
  assets : before.assets <+: after.assets
  apps : before.apps <+: after.apps

theorem Grows.refl (refs : References) : refs.Grows refs :=
  ⟨rfl, rfl, List.prefix_refl _, List.prefix_refl _, List.prefix_refl _⟩

theorem Grows.trans {a b c : References} (hab : a.Grows b) (hbc : b.Grows c) : a.Grows c :=
  ⟨hbc.sender.trans hab.sender, hbc.called.trans hab.called, hab.accounts.trans hbc.accounts,
    hab.assets.trans hbc.assets, hab.apps.trans hbc.apps⟩

/-! ## Looking up and appending -/

/-- The position of an element is where it stands in the array, which is at most appended to. -/
theorem position_spec {α : Type} [DecidableEq α] (x : α) (xs : List α) :
    xs <+: (position x xs).2 ∧ (position x xs).2[(position x xs).1]? = some x := by
  rw [position]
  cases hidx : xs.idxOf? x with
  | some i =>
      refine ⟨List.prefix_refl _, ?_⟩
      obtain ⟨hlt, hx, -⟩ := List.idxOf?_eq_some_iff.mp hidx
      exact List.getElem?_eq_some_iff.mpr ⟨hlt, hx⟩
  | none => exact ⟨List.prefix_append _ _, by simp⟩

/-- An index is written when it fits one byte. -/
theorem oneByte_eq_ok_iff {n : Nat} {i : UInt8} : oneByte n = .ok i ↔ n = i.toNat := by
  rw [oneByte]
  constructor
  · intro h
    split at h
    · next hle =>
        cases h
        rw [Limits.oneByte] at hle
        rw [UInt8.toNat_ofNat']
        omega
    · cases h
  · rintro rfl
    have hlt := i.toNat_lt
    rw [if_pos (by rw [Limits.oneByte]; omega), UInt8.ofNat_toNat]

/-- What stands at a place of an array stands there in every longer one. -/
theorem getElem?_stays {α : Type} {xs ys : List α} {x : α} {n : Nat} (h : xs <+: ys)
    (hx : xs[n]? = some x) : ys[n]? = some x := by
  obtain ⟨more, rfl⟩ := h
  obtain ⟨hlt, -⟩ := List.getElem?_eq_some_iff.mp hx
  rw [List.getElem?_append_left hlt]
  exact hx

/-- The sender is account 0; any other has the place found or appended, counted from 1. -/
theorem run_accountIndex (address : Address) (refs : References) :
    (accountIndex address).run refs
      = if address = refs.sender then (.ok 0, refs)
        else (oneByte ((position address refs.accounts).1 + 1),
          { refs with accounts := (position address refs.accounts).2 }) := by
  show ExceptT.run (if address = refs.sender then _ else _ : Referencing UInt8) refs = _
  split
  · rfl
  · rfl

/-- An asset has the place found or appended, counted from 0. -/
theorem run_assetIndex (id : UInt64) (refs : References) :
    (assetIndex id).run refs
      = (oneByte (position id refs.assets).1,
          { refs with assets := (position id refs.assets).2 }) := rfl

/-- The application called is application 0; any other has the place found or appended, counted from
    1. -/
theorem run_applicationIndex (id : UInt64) (refs : References) :
    (applicationIndex id).run refs
      = if id = refs.called then (.ok 0, refs)
        else (oneByte ((position id refs.apps).1 + 1),
          { refs with apps := (position id refs.apps).2 }) := by
  show ExceptT.run (if id = refs.called then _ else _ : Referencing UInt8) refs = _
  split
  · rfl
  · rfl

variable {before after later : References} {i : UInt8}

/-- An index that is handed out for an account names it, also when the arrays grow. -/
theorem accountAt_accountIndex {address : Address}
    (h : (accountIndex address).run before = (.ok i, after)) :
    before.Grows after ∧ ∀ later, after.Grows later → later.accountAt i = .ok address := by
  rw [run_accountIndex] at h
  split at h
  · next hsender =>
      cases h
      refine ⟨.refl before, ?_⟩
      intro later hlater
      show Except.ok later.sender = .ok address
      rw [hlater.sender, hsender]
  · next hother =>
      obtain ⟨hpre, hplace⟩ := position_spec address before.accounts
      rw [Prod.mk.injEq, oneByte_eq_ok_iff] at h
      obtain ⟨hi, rfl⟩ := h
      refine ⟨⟨rfl, rfl, hpre, List.prefix_refl _, List.prefix_refl _⟩, ?_⟩
      intro later hlater
      rw [accountAt, ← hi]
      simp only [getElem?_stays hlater.accounts hplace]

/-- An index that is handed out for an asset names it, also when the arrays grow. -/
theorem assetAt_assetIndex {id : UInt64} (h : (assetIndex id).run before = (.ok i, after)) :
    before.Grows after ∧ ∀ later, after.Grows later → later.assetAt i = .ok id := by
  rw [run_assetIndex] at h
  obtain ⟨hpre, hplace⟩ := position_spec id before.assets
  rw [Prod.mk.injEq, oneByte_eq_ok_iff] at h
  obtain ⟨hi, rfl⟩ := h
  refine ⟨⟨rfl, rfl, List.prefix_refl _, hpre, List.prefix_refl _⟩, ?_⟩
  intro later hlater
  rw [assetAt, ← hi]
  simp only [getElem?_stays hlater.assets hplace]

/-- An index that is handed out for an application names it, also when the arrays grow. -/
theorem applicationAt_applicationIndex {id : UInt64}
    (h : (applicationIndex id).run before = (.ok i, after)) :
    before.Grows after ∧ ∀ later, after.Grows later → later.applicationAt i = .ok id := by
  rw [run_applicationIndex] at h
  split at h
  · next hcalled =>
      cases h
      refine ⟨.refl before, ?_⟩
      intro later hlater
      show Except.ok later.called = .ok id
      rw [hlater.called, hcalled]
  · next hother =>
      obtain ⟨hpre, hplace⟩ := position_spec id before.apps
      rw [Prod.mk.injEq, oneByte_eq_ok_iff] at h
      obtain ⟨hi, rfl⟩ := h
      refine ⟨⟨rfl, rfl, List.prefix_refl _, List.prefix_refl _, hpre⟩, ?_⟩
      intro later hlater
      rw [applicationAt, ← hi]
      simp only [getElem?_stays hlater.apps hplace]

end References

/-! ## Layouts -/

/-- Whether a layout has only been appended to; references stay by value or by index. -/
inductive Grows : Layout → Layout → Prop where
  | byValue : Grows none none
  | byIndex {before after : References} : before.Grows after → Grows (some before) (some after)

namespace Grows

theorem refl : ∀ layout : Layout, Grows layout layout
  | none => .byValue
  | some refs => .byIndex (.refl refs)

theorem trans {a b c : Layout} (hab : Grows a b) (hbc : Grows b c) : Grows a c := by
  cases hab with
  | byValue => exact hbc
  | byIndex hab =>
      cases hbc with
      | byIndex hbc => exact .byIndex (hab.trans hbc)

/-- A layout that grows stays with or without references. -/
theorem isSome_eq {a b : Layout} (h : Grows a b) : b.isSome = a.isSome := by
  cases h <;> rfl

end Grows

namespace Encoding

/-- A reference is written by value, or by the index that is found for it. -/
theorem yields_reference {index : Referencing UInt8} {byValue bytes : Bytes}
    {before after : Layout} :
    Yields (reference index byValue) before bytes after ↔
      (before = none ∧ after = none ∧ bytes = byValue) ∨
        ∃ refs refs' i, before = some refs ∧ after = some refs' ∧
          index.run refs = (.ok i, refs') ∧ bytes = [i] := by
  cases before with
  | none =>
      show (Except.ok byValue, none) = (Except.ok bytes, after) ↔ _
      simp [eq_comm, and_comm]
  | some refs =>
      rcases hindex : index.run refs with ⟨r, refs'⟩
      have hrun : (reference index byValue).run (some refs)
          = (r.map fun i => [i], some refs') := by
        rw [reference, Action.run_get_bind]
        simp only [hindex]
        cases r <;> rfl
      rw [Yields, hrun]
      constructor
      · intro h
        right
        cases r with
        | error e =>
            have h : (Except.error e, some refs') = (Except.ok bytes, after) := h
            simp at h
        | ok i =>
            have h : (Except.ok [i], some refs') = (Except.ok bytes, after) := h
            obtain ⟨rfl, rfl⟩ : [i] = bytes ∧ some refs' = after := by simpa using h
            exact ⟨refs, refs', i, rfl, rfl, hindex, rfl⟩
      · rintro (⟨h, -, -⟩ | ⟨_, refs'', i, h, rfl, hrun, rfl⟩)
        · cases h
        · cases h
          rw [hindex] at hrun
          cases hrun
          rfl

end Encoding

end AvmSandbox
