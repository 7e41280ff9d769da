import AvmSandbox.Proofs.Chain.Groups

/-! # Clear state — which calls come to issue inner transactions

    A call that clears state may not issue inner transactions.  That is asked
    when a composition is opened; what was composed is then issued by whichever
    call is active when it is submitted.  In between another transaction can be
    made active, and a call that clears state issues after all.

    This is the only way: an open composition stands opposite to a call that
    does not clear state until the active transaction is changed, and nothing
    but a submission in such a place adds to a call that clears state.

    * `Timeline.ClearStateEmpty` and `Timeline.Exposed`: the conditions on a
      timeline;
    * `InnerStep`: what contracts do to compose and submit;
    * `InnerStep.clearStateEmpty_after_iff`, `InnerStep.exposed_after`: one step;
    * `Timeline.clearStateEmpty_run_iff`: every sequence of steps, and
      `Timeline.not_clearStateEmpty_run`: one in which a call issues that may not. -/

namespace AvmSandbox

open AvmSandbox.Action

/-! ## Conditions -/

/-- Whether a transaction is a call that clears state. -/
def Transaction.ClearsState (t : Transaction) : Prop :=
  ∃ call, t.body = .call call ∧ call.onCompletion = .clearState

namespace Group

/-- Whether none of the calls that clear state has issued anything. -/
def ClearStateEmpty (ts : List Transaction) : Prop :=
  ∀ t ∈ ts, t.ClearsState → t.body.inner = []

/-- A call that has issued more is as before when it does not clear state or has issued nothing
    more. -/
theorem clearStateEmpty_set_iff {ts submitted : List Transaction} {i : Nat} {t : Transaction}
    {call : AppCall} (ht : ts[i]? = some t) (hcall : t.body = .call call) :
    ClearStateEmpty
        (ts.set i { t with body := .call { call with inner := call.inner ++ submitted } }) ↔
      ClearStateEmpty ts ∧ (t.ClearsState → submitted = []) := by
  obtain ⟨header, body⟩ := t
  obtain rfl : body = .call call := hcall
  obtain ⟨hi, hget⟩ := List.getElem?_eq_some_iff.mp ht
  have hclears : Transaction.ClearsState
        ⟨header, .call { call with inner := call.inner ++ submitted }⟩ ↔
      Transaction.ClearsState ⟨header, .call call⟩ := by
    constructor
    · rintro ⟨c, hc, haction⟩
      cases hc
      exact ⟨call, rfl, haction⟩
    · rintro ⟨c, hc, haction⟩
      cases hc
      exact ⟨_, rfl, haction⟩
  have hissued : (Body.call { call with inner := call.inner ++ submitted }).inner
      = call.inner ++ submitted := rfl
  constructor
  · intro h
    have hset := h _ (List.mem_set hi _)
    refine ⟨?_, fun hc => (List.append_eq_nil_iff.mp (hset (hclears.mpr hc))).2⟩
    intro u hu hc
    obtain ⟨j, hj⟩ := List.mem_iff_getElem?.mp hu
    -- only the transaction at `i` differs, and it issued no less than before
    by_cases hij : i = j
    · rw [← hij, ht] at hj
      cases hj
      exact (List.append_eq_nil_iff.mp (hset (hclears.mpr hc))).1
    · refine h u (List.mem_iff_getElem?.mpr ⟨j, ?_⟩) hc
      rw [List.getElem?_set_ne hij, hj]
  · rintro ⟨h, hnone⟩ u hu hc
    rcases List.mem_or_eq_of_mem_set hu with hu | rfl
    · exact h u hu hc
    · have hbefore := h _ (List.mem_iff_getElem?.mpr ⟨i, ht⟩) (hclears.mp hc)
      show call.inner ++ submitted = []
      rw [hnone (hclears.mp hc), List.append_nil]
      exact hbefore

end Group

namespace Timeline

/-- Whether no call of the open group that clears state has issued anything. -/
def ClearStateEmpty (tl : Timeline) : Prop :=
  ∀ g, tl.current = some g → Group.ClearStateEmpty g.transactions

/-- Whether a call that clears state is active while a composition is open. -/
def Exposed (tl : Timeline) : Prop :=
  ∃ g t, tl.current = some g ∧ g.composing.isSome = true ∧
    g.transactions[g.active]? = some t ∧ t.ClearsState

variable {tl tl' : Timeline}

/-- The same transactions have issued the same. -/
theorem clearStateEmpty_congr
    (h : tl'.current.map Group.transactions = tl.current.map Group.transactions) :
    tl'.ClearStateEmpty ↔ tl.ClearStateEmpty := by
  have hmap : ∀ tl : Timeline, tl.ClearStateEmpty ↔
      ∀ ts, tl.current.map Group.transactions = some ts → Group.ClearStateEmpty ts := by
    intro tl
    rw [ClearStateEmpty]
    cases tl.current <;> simp
  rw [hmap, hmap, h]

/-- A group without an open composition exposes nobody. -/
theorem not_exposed_of_closed {g : Group} (hg : tl.current = some g) (hclosed : g.composing = none) :
    ¬tl.Exposed := by
  rintro ⟨g', t, hg', hcomposing, -⟩
  obtain rfl := Option.some.inj (hg.symm.trans hg')
  rw [hclosed] at hcomposing
  cases hcomposing

/-- Neither does a group whose active call does not clear state. -/
theorem not_exposed_of_keepsState {g : Group} {t : Transaction} {call : AppCall}
    (hg : tl.current = some g) (ht : g.transactions[g.active]? = some t)
    (hcall : t.body = .call call) (hkeeps : call.onCompletion ≠ .clearState) : ¬tl.Exposed := by
  rintro ⟨g', t', hg', -, ht', c, hc, hclears⟩
  obtain rfl := Option.some.inj (hg.symm.trans hg')
  obtain rfl := Option.some.inj (ht.symm.trans ht')
  obtain rfl := Body.call.inj (hcall.symm.trans hc)
  exact hkeeps hclears

end Timeline

/-! ## Submissions -/

namespace Chain

variable {c c' : Chain} {submitted : List Transaction} {p : InnerParams}

/-- A submission that fails has failed while it was staged. -/
theorem stageInner_of_failed_submitInner {e : Fault} (h : submitInner.run c = (.error e, c')) :
    stageInner.run c = (.error e, c') := by
  rw [submitInner, run_bind] at h
  rcases hstage : stageInner.run c with ⟨e' | s, c₁⟩
  · rw [hstage] at h
    cases h
    rfl
  · obtain ⟨g, app, record, params, -, happ, -, -, -, -, -, hc₁⟩ :=
      yields_stageInner_iff.mp hstage
    obtain ⟨t, call, ht, hcall, -⟩ := Group.activeApp_eq_ok_iff.mp happ
    have hopen : c₁.timeline.current = some { g with composing := none } := by rw [hc₁]
    -- what was staged is always committed
    rw [hstage] at h
    cases h.symm.trans (yields_commitInner s hopen ht hcall)

/-- A submission that succeeds had something to submit, which the active call has issued. -/
theorem issued_of_yields_submitInner (h : Yields submitInner c submitted c') :
    ∃ g t call, c.timeline.current = some g ∧ g.composing.isSome = true ∧
      g.transactions[g.active]? = some t ∧ t.body = .call call ∧
      c'.timeline.current = some { g with
        transactions := g.transactions.set g.active
          { t with body := .call { call with inner := call.inner ++ submitted } }
        innerGroups := g.innerGroups ++ [submitted]
        composing := none } := by
  obtain ⟨s, c₁, hstage, hcommit⟩ := yields_bind.mp h
  obtain ⟨g, app, record, params, hg, happ, -, hparams, -, -, -, hc₁⟩ :=
    yields_stageInner_iff.mp hstage
  obtain ⟨t, call, ht, hcall, -⟩ := Group.activeApp_eq_ok_iff.mp happ
  have hopen : c₁.timeline.current = some { g with composing := none } := by rw [hc₁]
  cases hcommit.symm.trans (yields_commitInner s hopen ht hcall)
  exact ⟨g, t, call, hg, by rw [hparams]; rfl, ht, hcall, rfl⟩

/-- Whether what is composed can be submitted although the active call clears state. -/
def IssuesClearing (c : Chain) : Prop :=
  ∃ submitted c' g t, Yields submitInner c submitted c' ∧ submitted ≠ [] ∧
    c.timeline.current = some g ∧ g.transactions[g.active]? = some t ∧ t.ClearsState

theorem exposed_of_issuesClearing (h : c.IssuesClearing) : c.timeline.Exposed := by
  obtain ⟨submitted, c', g, t, hsubmit, -, hg, ht, hclears⟩ := h
  obtain ⟨g', t', call, hg', hcomposing, -⟩ := issued_of_yields_submitInner hsubmit
  obtain rfl := Option.some.inj (hg.symm.trans hg')
  exact ⟨g, t, hg, hcomposing, ht, hclears⟩

/-- **A SUBMISSION ADDS TO THE ACTIVE CALL ONLY**, whether or not it succeeds. -/
theorem clearStateEmpty_submitInner_iff :
    (submitInner.run c).2.timeline.ClearStateEmpty ↔
      c.timeline.ClearStateEmpty ∧ ¬c.IssuesClearing := by
  rcases hrun : submitInner.run c with ⟨e | submitted, c'⟩
  · have hnone : ¬c.IssuesClearing := by
      rintro ⟨submitted, c'', g, t, hsubmit, -⟩
      cases hrun.symm.trans hsubmit
    have hrecorded : recorded (stageInner.run c).2 = recorded c := recorded_stageInner c
    rw [stageInner_of_failed_submitInner hrun] at hrecorded
    rw [and_iff_left hnone]
    exact Timeline.clearStateEmpty_congr (eq_of_recorded hrecorded).2.2
  · obtain ⟨g, t, call, hg, -, ht, hcall, hcurrent⟩ := issued_of_yields_submitInner hrun
    have hissues : c.IssuesClearing ↔ t.ClearsState ∧ submitted ≠ [] := by
      constructor
      · rintro ⟨submitted', c'', g', t', hsubmit, hne, hg', ht', hclears⟩
        cases hrun.symm.trans hsubmit
        obtain rfl := Option.some.inj (hg.symm.trans hg')
        obtain rfl := Option.some.inj (ht.symm.trans ht')
        exact ⟨hclears, hne⟩
      · rintro ⟨hclears, hne⟩
        exact ⟨submitted, c', g, t, hrun, hne, hg, ht, hclears⟩
    have hafter : c'.timeline.ClearStateEmpty ↔ Group.ClearStateEmpty (g.transactions.set g.active
        { t with body := .call { call with inner := call.inner ++ submitted } }) := by
      rw [Timeline.ClearStateEmpty, hcurrent]
      simp
    have hbefore : c.timeline.ClearStateEmpty ↔ Group.ClearStateEmpty g.transactions := by
      rw [Timeline.ClearStateEmpty, hg]
      simp
    rw [hafter, hbefore, Group.clearStateEmpty_set_iff ht hcall, hissues, not_and, not_not]

/-- A submission closes the composition or leaves it as it was. -/
theorem exposed_submitInner :
    Ends submitInner c fun c' => c'.timeline.Exposed → c.timeline.Exposed := by
  have hstage : Ends stageInner c fun c' => c'.timeline.Exposed → c.timeline.Exposed := by
    refine ends_stageInner (fun h => h) ?_ fun _ _ h => h
    intro g hg hexposed
    exact absurd hexposed (Timeline.not_exposed_of_closed rfl rfl)
  rcases hrun : submitInner.run c with ⟨e | submitted, c'⟩
  · rw [Ends, stageInner_of_failed_submitInner hrun] at hstage
    rw [Ends, hrun]
    exact hstage
  · obtain ⟨g, t, call, -, -, -, -, hcurrent⟩ := issued_of_yields_submitInner hrun
    rw [Ends, hrun]
    intro hexposed
    exact absurd hexposed (Timeline.not_exposed_of_closed hcurrent rfl)

/-- A single submission fails before it has begun, or is that of one transaction for a call that
    does not clear state. -/
theorem ends_submitSingle {P : Chain → Prop} (hfails : P c)
    (hbegun : ∀ g t call, c.timeline.current = some g → g.transactions[g.active]? = some t →
      t.body = .call call → call.onCompletion ≠ .clearState →
      Ends submitInner { c with
        timeline := { c.timeline with current := some { g with composing := some [p] } } } P) :
    Ends (submitSingle p) c P := by
  rw [submitSingle, ends_get_bind]
  refine ends_lift_bind hfails fun begun hbegun' => ends_lift_bind hfails fun filled hfilled => ?_
  obtain ⟨g, hg, hbegun'⟩ := bind_eq_ok_iff.mp hbegun'
  obtain ⟨g', hbegin, hbegun'⟩ := bind_eq_ok_iff.mp hbegun'
  obtain ⟨-, ⟨t, call, ht, hcall, hkeeps⟩, rfl⟩ := Group.beginInner_eq_ok_iff.mp hbegin
  obtain rfl := pure_eq_ok_iff.mp hbegun'
  obtain rfl := Except.ok.inj hfilled
  rw [ends_modify_bind]
  refine ends_bind (hbegun g t call (Timeline.group_eq_ok_iff.mp hg) ht hcall hkeeps)
    (fun _ h => h) fun submitted c' h => ?_
  split <;> exact h

end Chain

/-! ## Steps -/

/-- What a contract does to compose inner transactions and to submit them.  A submission takes
    effect on some ledger. -/
inductive InnerStep where
  | setActive (index : Nat)
  | beginInner
  | nextInner
  | assignInner (field : InnerField)
  | submitInner (ledger : Ledger)
  | submitSingle (ledger : Ledger) (p : InnerParams)

namespace InnerStep

/-- The step among all that can be done to groups. -/
def operation : InnerStep → Timeline.Operation
  | setActive index => .setActive index
  | beginInner => .beginInner
  | nextInner => .nextInner
  | assignInner field => .assignInner field
  | submitInner ledger => .submitInner ledger
  | submitSingle ledger p => .submitSingle ledger p

/-- The timeline to go on with, whether or not the step succeeds. -/
def after (tl : Timeline) (step : InnerStep) : Timeline := step.operation.after tl

/-- Whether the step is a submission by which a call that clears state issues something. -/
def IssuesClearing (tl : Timeline) : InnerStep → Prop
  | submitInner ledger => Chain.IssuesClearing ⟨ledger, tl⟩
  | _ => False

variable {tl : Timeline}

/-- A change of the open group leaves the timeline alone or puts the changed group in place. -/
theorem orSame_modifyGroup {P : Timeline → Prop} {f : Group → Result Group} (hsame : P tl)
    (hf : ∀ g g', tl.current = some g → f g = .ok g' → P { tl with current := some g' }) :
    P (Timeline.Operation.orSame tl (tl.modifyGroup f)) := by
  cases hmodify : tl.modifyGroup f with
  | error e => exact hsame
  | ok tl' =>
      obtain ⟨g, hg, hmodify⟩ := bind_eq_ok_iff.mp hmodify
      obtain ⟨g', hg', hmodify⟩ := bind_eq_ok_iff.mp hmodify
      obtain rfl := pure_eq_ok_iff.mp hmodify
      exact hf g g' (Timeline.group_eq_ok_iff.mp hg) hg'

/-- A step that is no submission leaves the transactions alone. -/
theorem clearStateEmpty_orSame_iff {f : Group → Result Group}
    (hf : ∀ g g', f g = .ok g' → g'.transactions = g.transactions) :
    (Timeline.Operation.orSame tl (tl.modifyGroup f)).ClearStateEmpty ↔ tl.ClearStateEmpty := by
  refine orSame_modifyGroup (P := fun tl' => tl'.ClearStateEmpty ↔ tl.ClearStateEmpty) Iff.rfl ?_
  intro g g' hg hg'
  refine Timeline.clearStateEmpty_congr ?_
  rw [hg, Option.map_some, Option.map_some, hf g g' hg']

/-- **WHAT ONE STEP ADDS**: a call that clears state has issued something behind a step if it had
    before, or if the step submits for it. -/
theorem clearStateEmpty_after_iff (step : InnerStep) :
    (step.after tl).ClearStateEmpty ↔ tl.ClearStateEmpty ∧ ¬step.IssuesClearing tl := by
  cases step with
  | setActive index =>
      refine (clearStateEmpty_orSame_iff fun g g' h => ?_).trans (and_iff_left not_false).symm
      obtain ⟨-, rfl⟩ := Group.setActive_eq_ok_iff.mp h
      rfl
  | beginInner =>
      refine (clearStateEmpty_orSame_iff fun g g' h => ?_).trans (and_iff_left not_false).symm
      obtain ⟨-, -, rfl⟩ := Group.beginInner_eq_ok_iff.mp h
      rfl
  | nextInner =>
      refine (clearStateEmpty_orSame_iff fun g g' h => ?_).trans (and_iff_left not_false).symm
      obtain ⟨params, -, rfl⟩ := Group.nextInner_eq_ok_iff.mp h
      rfl
  | assignInner field =>
      refine (clearStateEmpty_orSame_iff fun g g' h => ?_).trans (and_iff_left not_false).symm
      obtain ⟨params, p, -, rfl⟩ := Group.exists_of_modifyInner h
      rfl
  | submitInner ledger => exact Chain.clearStateEmpty_submitInner_iff
  | submitSingle ledger p =>
      refine Iff.trans ?_ (and_iff_left not_false).symm
      refine Chain.ends_submitSingle (c := ⟨ledger, tl⟩)
        (P := fun c' => c'.timeline.ClearStateEmpty ↔ tl.ClearStateEmpty) Iff.rfl ?_
      intro g t call hg ht hcall hkeeps
      -- the active call does not clear state, so what it issues does not count
      have hsafe : ¬Timeline.Exposed { tl with current := some { g with composing := some [p] } } :=
        Timeline.not_exposed_of_keepsState rfl ht hcall hkeeps
      have hnone : ¬Chain.IssuesClearing ⟨ledger, { tl with
          current := some { g with composing := some [p] } }⟩ := fun h =>
        hsafe (Chain.exposed_of_issuesClearing h)
      refine Chain.clearStateEmpty_submitInner_iff.trans ((and_iff_left hnone).trans ?_)
      refine Timeline.clearStateEmpty_congr ?_
      rw [hg]
      rfl

/-- **ONE STEP ALONE EXPOSES A CALL**: that which makes another transaction active. -/
theorem exposed_after {step : InnerStep} (h : (step.after tl).Exposed) :
    tl.Exposed ∨ ∃ index, step = .setActive index := by
  -- a change of what is composed leaves the active transaction alone
  have hcomposed : ∀ {g : Group} {composing : Option (List InnerParams)}, tl.current = some g →
      g.composing.isSome = true →
      Timeline.Exposed { tl with current := some { g with composing } } → tl.Exposed := by
    rintro g composing hg hsome ⟨g', t, hg', -, ht, hclears⟩
    obtain rfl := Option.some.inj hg'
    exact ⟨g, t, hg, hsome, ht, hclears⟩
  cases step with
  | setActive index => exact Or.inr ⟨index, rfl⟩
  | beginInner =>
      refine Or.inl (orSame_modifyGroup (P := fun tl' => tl'.Exposed → tl.Exposed) id ?_ h)
      intro g g' hg hbegin hexposed
      obtain ⟨-, ⟨t, call, ht, hcall, hkeeps⟩, rfl⟩ := Group.beginInner_eq_ok_iff.mp hbegin
      exact absurd hexposed (Timeline.not_exposed_of_keepsState rfl ht hcall hkeeps)
  | nextInner =>
      refine Or.inl (orSame_modifyGroup (P := fun tl' => tl'.Exposed → tl.Exposed) id ?_ h)
      intro g g' hg hnext hexposed
      obtain ⟨params, hparams, rfl⟩ := Group.nextInner_eq_ok_iff.mp hnext
      exact hcomposed hg (by rw [hparams]; rfl) hexposed
  | assignInner field =>
      refine Or.inl (orSame_modifyGroup (P := fun tl' => tl'.Exposed → tl.Exposed) id ?_ h)
      intro g g' hg hassign hexposed
      obtain ⟨params, p, hsome, rfl⟩ := Group.exists_of_modifyInner hassign
      exact hcomposed hg hsome hexposed
  | submitInner ledger => exact Or.inl (Chain.exposed_submitInner (c := ⟨ledger, tl⟩) h)
  | submitSingle ledger p =>
      refine Or.inl (Chain.ends_submitSingle (c := ⟨ledger, tl⟩)
        (P := fun c' => c'.timeline.Exposed → tl.Exposed) id ?_ h)
      intro g t call hg ht hcall hkeeps
      refine ends_mono Chain.exposed_submitInner fun c' hc' hexposed => ?_
      exact absurd (hc' hexposed) (Timeline.not_exposed_of_keepsState rfl ht hcall hkeeps)

theorem exposed_of_issuesClearing {step : InnerStep} (h : step.IssuesClearing tl) : tl.Exposed := by
  cases step with
  | submitInner ledger => exact Chain.exposed_of_issuesClearing h
  | _ => exact h.elim

end InnerStep

/-! ## Sequences of steps -/

namespace Timeline

/-- The timeline behind a sequence of steps, successful or failing. -/
def runInner (tl : Timeline) (steps : List InnerStep) : Timeline := steps.foldl InnerStep.after tl

/-- Whether a call that clears state issues something on the way. -/
def IssuesClearing : Timeline → List InnerStep → Prop
  | _, [] => False
  | tl, step :: steps => step.IssuesClearing tl ∨ IssuesClearing (step.after tl) steps

variable {tl : Timeline}

theorem clearStateEmpty_runInner_iff (steps : List InnerStep) :
    (tl.runInner steps).ClearStateEmpty ↔ tl.ClearStateEmpty ∧ ¬tl.IssuesClearing steps := by
  induction steps generalizing tl with
  | nil => exact (and_iff_left not_false).symm
  | cons step steps ih =>
      show ((step.after tl).runInner steps).ClearStateEmpty ↔ _
      rw [ih, InnerStep.clearStateEmpty_after_iff, IssuesClearing, not_or, and_assoc]

/-- What exposes a call that clears state on the way to a submission for it. -/
theorem exposed_of_issuesClearing {steps : List InnerStep} (hclosed : ¬tl.Exposed)
    (h : tl.IssuesClearing steps) :
    ∃ before index behind, steps = before ++ .setActive index :: behind ∧
      ¬(tl.runInner before).Exposed ∧
      (tl.runInner (before ++ [.setActive index])).Exposed := by
  induction steps generalizing tl with
  | nil => exact h.elim
  | cons step steps ih =>
      rcases h with h | h
      · exact absurd (InnerStep.exposed_of_issuesClearing h) hclosed
      · by_cases hexposed : (step.after tl).Exposed
        · rcases InnerStep.exposed_after hexposed with hbefore | ⟨index, rfl⟩
          · exact absurd hbefore hclosed
          · exact ⟨[], index, steps, rfl, hclosed, hexposed⟩
        · obtain ⟨before, index, behind, rfl, hbefore, hthen⟩ := ih hexposed h
          exact ⟨step :: before, index, behind, rfl, hbefore, hthen⟩

/-- **CLEAR STATE IS HEEDED UNTIL THE ACTIVE CALL CHANGES.**  Where no call that clears state has
    issued anything, none has behind a sequence of steps, successful or failing, exactly when no step
    is a submission that issues something while such a call is active.  That takes a step before it
    which makes such a call active while a composition is open. -/
theorem clearStateEmpty_run_iff (steps : List InnerStep) (hempty : tl.ClearStateEmpty) :
    ((tl.runInner steps).ClearStateEmpty ↔ ¬tl.IssuesClearing steps) ∧
      (¬tl.Exposed → tl.IssuesClearing steps →
        ∃ before index behind, steps = before ++ .setActive index :: behind ∧
          ¬(tl.runInner before).Exposed ∧
          (tl.runInner (before ++ [.setActive index])).Exposed) := by
  refine ⟨?_, exposed_of_issuesClearing⟩
  rw [clearStateEmpty_runInner_iff, and_iff_right hempty]

/-- A call of application 7 is active, and another one clears state. -/
def mixedTimeline : Timeline :=
  { Timeline.new .index with
    current := some {
      transactions := [.ofCall .zero { app := 7 },
        .ofCall .zero { app := 7, onCompletion := .clearState }]
      active := 0
      scratch := [.fresh, .fresh] } }

/-- The first call composes a payment, and the second one submits it. -/
def handedOver : List InnerStep := [.beginInner, .setActive 1, .submitInner callLedger]

theorem clearStateEmpty_mixedTimeline : mixedTimeline.ClearStateEmpty := by
  intro g hg t ht _
  cases hg
  rcases List.mem_pair.mp ht with rfl | rfl
  · rfl
  · rfl

theorem not_exposed_mixedTimeline : ¬mixedTimeline.Exposed :=
  not_exposed_of_closed rfl rfl

theorem not_clearStateEmpty_handedOver :
    ¬(mixedTimeline.runInner handedOver).ClearStateEmpty := by
  intro h
  have hissued : (mixedTimeline.runInner handedOver).current.map (fun g =>
        g.transactions.map fun t => (t.call?.map Call.onCompletion, t.body.inner.length))
      = some [(some .noOp, 0), (some .clearState, 1)] := by decide +kernel
  obtain ⟨g, hg, hts⟩ := Option.map_eq_some_iff.mp hissued
  have hmem : (some OnCompletion.clearState, 1) ∈ g.transactions.map fun t =>
      (t.call?.map Call.onCompletion, t.body.inner.length) := by
    rw [hts]
    exact List.mem_cons_of_mem _ (List.mem_singleton_self _)
  obtain ⟨⟨header, body⟩, ht, heq⟩ := List.mem_map.mp hmem
  obtain ⟨haction, hlength⟩ := Prod.mk.inj heq
  cases body with
  | call call =>
      have hnil := h g hg _ ht ⟨call, rfl, Option.some.inj haction⟩
      rw [hnil] at hlength
      cases hlength
  | _ => cases haction

/-- The payment is issued by the call that clears state, which was made active while it was
    composed. -/
theorem clearStateEmpty_run_iff_handedOver :
    mixedTimeline.ClearStateEmpty ∧ mixedTimeline.IssuesClearing handedOver ∧
      ∃ before index behind, handedOver = before ++ .setActive index :: behind ∧
        ¬(mixedTimeline.runInner before).Exposed ∧
        (mixedTimeline.runInner (before ++ [.setActive index])).Exposed := by
  obtain ⟨hiff, hcause⟩ := clearStateEmpty_run_iff handedOver clearStateEmpty_mixedTimeline
  have hissues : mixedTimeline.IssuesClearing handedOver :=
    not_not.mp (mt hiff.mpr not_clearStateEmpty_handedOver)
  exact ⟨clearStateEmpty_mixedTimeline, hissues, hcause not_exposed_mixedTimeline hissues⟩

/-- **A CALL THAT CLEARS STATE ISSUES**, although composing is refused to it. -/
theorem not_clearStateEmpty_run :
    ¬∀ (tl : Timeline) (steps : List InnerStep), tl.current.isSome = true →
      tl.ClearStateEmpty → ¬tl.Exposed → (tl.runInner steps).ClearStateEmpty := by
  intro hall
  exact not_clearStateEmpty_handedOver
    (hall mixedTimeline handedOver rfl clearStateEmpty_mixedTimeline not_exposed_mixedTimeline)

end Timeline

end AvmSandbox
