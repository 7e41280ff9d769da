import AvmSandbox.Fault

/-! # Actions — how computations over a state run

    An action changes a state, may fail on the way, and keeps what it has changed
    by then.  It is followed step by step in two ways: to where it succeeds, and
    to wherever it ends.

    * `bind_eq_ok_iff`, for computations that may fail without a state, and
      `mapM_cons_eq_ok_iff` for rows of them;
    * `run_bind` and the equations of the single steps evaluate an action;
    * `Yields`, `yields_bind`: an action succeeds when each of its steps does;
    * `Ends`, `ends_bind`: where an action ends, whether or not it fails. -/

namespace AvmSandbox

/-! ## Results -/

/-- A sequence of steps succeeds when each of them does. -/
theorem bind_eq_ok_iff {ε α β : Type} {r : Except ε α} {f : α → Except ε β} {b : β} :
    r >>= f = .ok b ↔ ∃ a, r = .ok a ∧ f a = .ok b := by
  cases r with
  | error e =>
      constructor
      · intro h
        cases h
      · rintro ⟨a, h, -⟩
        cases h
  | ok a =>
      show f a = .ok b ↔ _
      simp

/-- What follows a success runs on its value. -/
theorem ok_bind {α β : Type} (a : α) (f : α → Result β) : (.ok a : Result α) >>= f = f a := rfl

@[simp] theorem pure_eq_ok_iff {α : Type} {a b : α} : (pure a : Result α) = .ok b ↔ a = b := by
  show Except.ok a = .ok b ↔ _
  simp

@[simp] theorem throw_ne_ok {α : Type} {e : Fault} {b : α} : (throw e : Result α) ≠ .ok b := by
  intro h
  cases h

/-! ## Rows of results -/

section Rows

variable {α β : Type} {f : α → Result β} {x : α} {xs : List α} {ys : List β}

/-- A step at every element succeeds when it does at the first and at those behind it. -/
theorem mapM_cons_eq_ok_iff {zs : List β} :
    (x :: xs).mapM f = .ok zs ↔ ∃ y ys, f x = .ok y ∧ xs.mapM f = .ok ys ∧ zs = y :: ys := by
  simp only [List.mapM_cons, bind_eq_ok_iff, pure_eq_ok_iff]
  constructor
  · rintro ⟨y, hy, ys, hys, rfl⟩
    exact ⟨y, ys, hy, hys, rfl⟩
  · rintro ⟨y, ys, hy, hys, rfl⟩
    exact ⟨y, hy, ys, hys, rfl⟩

/-- A row of results that succeeds has one for each element. -/
theorem length_of_mapM (h : xs.mapM f = .ok ys) : ys.length = xs.length := by
  induction xs generalizing ys with
  | nil =>
      rw [List.mapM_nil, pure_eq_ok_iff] at h
      rw [← h]
      rfl
  | cons x xs ih =>
      obtain ⟨y, more, -, hmore, rfl⟩ := mapM_cons_eq_ok_iff.mp h
      rw [List.length_cons, List.length_cons, ih hmore]

/-- Each of them is that of the element in its place. -/
theorem exists_getElem?_of_mapM {i : Nat} (h : xs.mapM f = .ok ys) (hx : xs[i]? = some x) :
    ∃ y, ys[i]? = some y ∧ f x = .ok y := by
  induction xs generalizing ys i with
  | nil => cases hx
  | cons head xs ih =>
      obtain ⟨y, ys, hy, hys, rfl⟩ := mapM_cons_eq_ok_iff.mp h
      cases i with
      | zero =>
          cases hx
          exact ⟨y, rfl, hy⟩
      | succ i =>
          obtain ⟨z, hz, hresult⟩ := ih hys hx
          exact ⟨z, hz, hresult⟩

/-- Where one element is replaced, one result is. -/
theorem mapM_set_eq_ok_iff {i : Nat} {zs : List β} (h : xs.mapM f = .ok ys) (hi : i < xs.length) :
    (xs.set i x).mapM f = .ok zs ↔ ∃ y, f x = .ok y ∧ zs = ys.set i y := by
  induction xs generalizing ys zs i with
  | nil => cases hi
  | cons head xs ih =>
      obtain ⟨first, ys, hfirst, hys, rfl⟩ := mapM_cons_eq_ok_iff.mp h
      cases i with
      | zero =>
          rw [List.set_cons_zero, mapM_cons_eq_ok_iff]
          constructor
          · rintro ⟨y, more, hy, hmore, rfl⟩
            cases hmore.symm.trans hys
            exact ⟨y, hy, rfl⟩
          · rintro ⟨y, hy, rfl⟩
            exact ⟨y, ys, hy, hys, rfl⟩
      | succ i =>
          rw [List.set_cons_succ, mapM_cons_eq_ok_iff]
          constructor
          · rintro ⟨y, more, hy, hmore, rfl⟩
            cases hy.symm.trans hfirst
            obtain ⟨z, hz, rfl⟩ := (ih hys (Nat.lt_of_succ_lt_succ hi)).mp hmore
            exact ⟨z, hz, rfl⟩
          · rintro ⟨y, hy, rfl⟩
            exact ⟨first, _, hfirst, (ih hys (Nat.lt_of_succ_lt_succ hi)).mpr ⟨y, hy, rfl⟩, rfl⟩

end Rows

/-- A computation over a state.  What was changed stays when a later step fails. -/
abbrev Action (σ : Type) := ExceptT Fault (StateM σ)

namespace Action

variable {σ α β : Type} {s s' : σ}

/-! ## Single steps -/

@[simp] theorem run_pure (a : α) (s : σ) : (pure a : Action σ α).run s = (.ok a, s) := rfl

@[simp] theorem run_throw (e : Fault) (s : σ) :
    (throw e : Action σ α).run s = (.error e, s) := rfl

@[simp] theorem run_lift (r : Result α) (s : σ) :
    (liftM r : Action σ α).run s = (r, s) := rfl

@[simp] theorem run_get (s : σ) : (get : Action σ σ).run s = (.ok s, s) := rfl

@[simp] theorem run_set (t s : σ) : (set t : Action σ PUnit).run s = (.ok ⟨⟩, t) := rfl

@[simp] theorem run_modify (f : σ → σ) (s : σ) :
    (modify f : Action σ PUnit).run s = (.ok ⟨⟩, f s) := rfl

/-- A step and what follows it.  A failure ends the action where it occurs. -/
theorem run_bind (action : Action σ α) (next : α → Action σ β) (s : σ) :
    (action >>= next).run s =
      match action.run s with
      | (.ok a, s) => (next a).run s
      | (.error e, s) => (.error e, s) := by
  have hrun : (action >>= next).run s
      = (ExceptT.bindCont next (action.run s).1).run (action.run s).2 := rfl
  rw [hrun]
  rcases action.run s with ⟨_ | a, s⟩ <;> rfl

/-- A look at the state hands it to what follows. -/
@[simp] theorem run_get_bind (next : σ → Action σ β) (s : σ) :
    (get >>= next).run s = (next s).run s := by
  rw [run_bind, run_get]

/-- A set goes on with the new state. -/
@[simp] theorem run_set_bind (t : σ) (next : PUnit → Action σ β) (s : σ) :
    (set t >>= next).run s = (next ⟨⟩).run t := by
  rw [run_bind, run_set]

/-- A change goes on with the changed state. -/
@[simp] theorem run_modify_bind (f : σ → σ) (next : PUnit → Action σ β) (s : σ) :
    (modify f >>= next).run s = (next ⟨⟩).run (f s) := by
  rw [run_bind, run_modify]

/-- A step that may fail leaves the state alone. -/
theorem run_lift_bind (r : Result α) (next : α → Action σ β) (s : σ) :
    (liftM r >>= next).run s =
      match r with
      | .ok a => (next a).run s
      | .error e => (.error e, s) := by
  rw [run_bind, run_lift]
  cases r <;> rfl

/-- What follows a step that has left the state alone. -/
theorem run_bind_of_unchanged {action : Action σ α} (next : α → Action σ β) {s : σ}
    (h : (action.run s).2 = s) :
    (action >>= next).run s =
      match (action.run s).1 with
      | .ok a => (next a).run s
      | .error e => (.error e, s) := by
  rw [run_bind]
  rcases hrun : action.run s with ⟨_ | a, s'⟩
  · rw [hrun] at h
    obtain rfl : s' = s := h
    rfl
  · rw [hrun] at h
    obtain rfl : s' = s := h
    rfl

/-- A check fails without changing the state. -/
theorem run_unless {refused : Prop} [Decidable refused] (e : Fault) (action : Action σ α)
    (s : σ) :
    (if refused then (do throw e; action) else action).run s =
      if refused then (.error e, s) else action.run s := by
  split
  · rw [run_bind, run_throw]
  · rfl

/-! ## Actions that succeed -/

/-- Whether an action succeeds with a result and leaves a state. -/
def Yields (action : Action σ α) (before : σ) (a : α) (after : σ) : Prop :=
  action.run before = (.ok a, after)

/-- An action that succeeds leaves the state in which its run ends. -/
theorem yields_of_ok {action : Action σ α} {a : α} (h : (action.run s).1 = .ok a) :
    Yields action s a (action.run s).2 :=
  Prod.ext h rfl

/-- A value that is returned is the value, and the state stays. -/
@[simp] theorem yields_pure {a b : α} : Yields (pure a) s b s' ↔ a = b ∧ s = s' := by
  rw [Yields, run_pure, Prod.mk.injEq, Except.ok.injEq]

/-- A failure yields nothing. -/
@[simp] theorem not_yields_throw {e : Fault} {b : α} : ¬Yields (throw e) s b s' := by
  rw [Yields, run_throw, Prod.mk.injEq]
  simp

/-- A result yields its value if it has one, and leaves the state alone. -/
@[simp] theorem yields_lift {r : Result α} {b : α} :
    Yields (liftM r) s b s' ↔ r = .ok b ∧ s = s' := by
  rw [Yields, run_lift, Prod.mk.injEq]

/-- Behind a set the state is the one that was set. -/
@[simp] theorem yields_set {t : σ} {u : PUnit} : Yields (set t) s u s' ↔ t = s' := by
  rw [Yields, run_set, Prod.mk.injEq]
  simp

/-- A sequence of steps succeeds when each of them does, from where the one before it ended. -/
theorem yields_bind {action : Action σ α} {next : α → Action σ β} {b : β} :
    Yields (action >>= next) s b s' ↔
      ∃ a middle, Yields action s a middle ∧ Yields (next a) middle b s' := by
  simp only [Yields, run_bind]
  constructor
  · intro h
    rcases hrun : action.run s with ⟨e | a, middle⟩
    · rw [hrun] at h
      cases h
    · rw [hrun] at h
      exact ⟨a, middle, rfl, h⟩
  · rintro ⟨a, middle, ha, h⟩
    rw [ha]
    exact h

/-- What follows a look at the state is run with it. -/
@[simp] theorem yields_get_bind {next : σ → Action σ β} {b : β} :
    Yields (get >>= next) s b s' ↔ Yields (next s) s b s' := by
  rw [Yields, run_get_bind, Yields]

/-- What follows a set starts from the state that was set. -/
@[simp] theorem yields_set_bind {t : σ} {next : PUnit → Action σ β} {b : β} :
    Yields (set t >>= next) s b s' ↔ Yields (next ⟨⟩) t b s' := by
  rw [Yields, run_set_bind, Yields]

/-- What follows a change starts from the changed state. -/
@[simp] theorem yields_modify_bind {f : σ → σ} {next : PUnit → Action σ β} {b : β} :
    Yields (modify f >>= next) s b s' ↔ Yields (next ⟨⟩) (f s) b s' := by
  rw [Yields, run_modify_bind, Yields]

/-- A step that may fail leaves the state alone. -/
theorem yields_lift_bind {r : Result α} {next : α → Action σ β} {b : β} :
    Yields (liftM r >>= next) s b s' ↔ ∃ a, r = .ok a ∧ Yields (next a) s b s' := by
  rw [yields_bind]
  simp only [yields_lift]
  constructor
  · rintro ⟨a, _, ⟨ha, rfl⟩, h⟩
    exact ⟨a, ha, h⟩
  · rintro ⟨a, ha, h⟩
    exact ⟨a, s, ⟨ha, rfl⟩, h⟩

/-- A checked action succeeds when the check passes. -/
theorem yields_unless {refused : Prop} [Decidable refused] {e : Fault} {action : Action σ α}
    {b : α} :
    Yields (if refused then (do throw e; action) else action) s b s' ↔
      ¬refused ∧ Yields action s b s' := by
  rw [Yields, run_unless]
  by_cases h : refused
  · rw [if_pos h, Prod.mk.injEq]
    simp [h]
  · simp [h, Yields]

/-! ## Actions however they end -/

/-- Whether a condition holds of the state in which an action ends, whether or not it fails. -/
def Ends (action : Action σ α) (s : σ) (P : σ → Prop) : Prop := P (action.run s).2

/-- An action ends no worse when less is asked. -/
theorem ends_mono {P Q : σ → Prop} {action : Action σ α} (h : Ends action s P)
    (himp : ∀ s', P s' → Q s') : Ends action s Q := himp _ h

/-- A sequence ends where its first step fails, or where the steps behind it end. -/
theorem ends_bind {P Q : σ → Prop} {action : Action σ α} {next : α → Action σ β}
    (haction : Ends action s Q) (hfails : ∀ s', Q s' → P s')
    (hnext : ∀ a s', Q s' → Ends (next a) s' P) : Ends (action >>= next) s P := by
  rw [Ends] at haction
  rw [Ends, run_bind]
  rcases hrun : action.run s with ⟨e | a, s'⟩
  · rw [hrun] at haction
    exact hfails s' haction
  · rw [hrun] at haction
    exact hnext a s' haction

/-- A sequence of steps along a transitive relation goes along it. -/
theorem ends_bind_trans {R : σ → σ → Prop} (htrans : ∀ {a b c}, R a b → R b c → R a c)
    {action : Action σ α} {next : α → Action σ β} (haction : Ends action s (R s))
    (hnext : ∀ a s', Ends (next a) s' (R s')) : Ends (action >>= next) s (R s) :=
  ends_bind haction (fun _ h => h) fun a s' h => ends_mono (hnext a s') fun _ h' => htrans h h'

/-- A look at the state leaves the end to what follows. -/
@[simp] theorem ends_get_bind {P : σ → Prop} {next : σ → Action σ β} :
    Ends (get >>= next) s P ↔ Ends (next s) s P := by
  rw [Ends, run_get_bind, Ends]

/-- A set leaves the end to what follows, from the state that was set. -/
@[simp] theorem ends_set_bind {P : σ → Prop} {t : σ} {next : PUnit → Action σ β} :
    Ends (set t >>= next) s P ↔ Ends (next ⟨⟩) t P := by
  rw [Ends, run_set_bind, Ends]

/-- A change leaves the end to what follows, from the changed state. -/
@[simp] theorem ends_modify_bind {P : σ → Prop} {f : σ → σ} {next : PUnit → Action σ β} :
    Ends (modify f >>= next) s P ↔ Ends (next ⟨⟩) (f s) P := by
  rw [Ends, run_modify_bind, Ends]

/-- What holds behind a step that has left the state alone. -/
theorem ends_bind_of_unchanged {P : σ → Prop} {action : Action σ α} {next : α → Action σ β}
    (h : (action.run s).2 = s) (hs : P s)
    (hnext : ∀ a, (action.run s).1 = .ok a → Ends (next a) s P) :
    Ends (action >>= next) s P := by
  rw [Ends, run_bind_of_unchanged next h]
  rcases hresult : (action.run s).1 with e | a
  · exact hs
  · exact hnext a hresult

/-- A step that may fail leaves the state alone. -/
theorem ends_lift_bind {P : σ → Prop} {r : Result α} {next : α → Action σ β} (hs : P s)
    (hnext : ∀ a, r = .ok a → Ends (next a) s P) : Ends (liftM r >>= next) s P :=
  ends_bind_of_unchanged rfl hs hnext

/-- A check leaves the state alone. -/
theorem ends_unless {P : σ → Prop} {refused : Prop} [Decidable refused] {e : Fault}
    {action : Action σ α} (hs : P s) (haction : ¬refused → Ends action s P) :
    Ends (if refused then (do throw e; action) else action) s P := by
  rw [Ends, run_unless]
  split
  · exact hs
  · exact haction ‹_›

/-! ## Actions one after the other -/

/-- The results of actions that are taken one after the other, also behind one that fails, and
    the state they leave. -/
def runAll : List (Action σ α) → σ → List (Result α) × σ
  | [], s => ([], s)
  | action :: actions, s =>
      let first := action.run s
      let others := runAll actions first.2
      (first.1 :: others.1, others.2)

end Action

end AvmSandbox
