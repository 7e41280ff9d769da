import AvmSandbox.Proofs.Chain.ClearState
import AvmSandbox.Proofs.Chain.Composition

/-! # Single submissions — what is left under composition

    A single submission opens a composition of its own and submits it.  The
    composition is closed as soon as it is taken, before anything that is
    composed can fail, so a failure leaves nothing behind but the number of
    identifiers made.

    One thing is asked before: for the address to issue from, the application of
    the active call is looked up in the ledger.  When it is not there, what the
    submission has opened stays open, and the next single submission finds a
    composition that nobody else has begun.

    * `Chain.MayCompose`, `Chain.Orphaned`: who may compose, and for what;
    * `run_submitSingle_refused`, `run_submitSingle_orphaned`,
      `run_submitSingle_issuing`: the three ways a single submission can go;
    * `composition_submitSingle_iff`: which of them leave the composition alone. -/

namespace AvmSandbox

open AvmSandbox.Action

/-- Transactions that are composed are among those submitted. -/
theorem Staging.done_ne_nil_of_addAll {issuer : Address} {observers : List Observer}
    {s s' : Staging} {p : InnerParams} {u : Unit}
    (h : Yields (addAll issuer observers [p]) s u s') : s'.done ≠ [] := by
  obtain ⟨_, middle, hadd, hnothing⟩ := yields_bind.mp h
  obtain ⟨t, l, t', -, -, rfl⟩ := yields_add_iff.mp hadd
  obtain ⟨-, rfl⟩ := yields_pure.mp hnothing
  simp

namespace Chain

/-! ## Who may compose -/

/-- Whether a call may open a composition: it is active in the open group, where nothing is
    composed, and does not clear state. -/
structure MayCompose (c : Chain) (g : Group) (call : AppCall) : Prop where
  current : c.timeline.current = some g
  closed : g.composing = none
  active : ∃ t, g.transactions[g.active]? = some t ∧ t.body = .call call
  keepsState : call.onCompletion ≠ .clearState

/-- Whether a call of an application that is not in the ledger may open a composition. -/
def Orphaned (c : Chain) : Prop :=
  ∃ g call, c.MayCompose g call ∧ ∀ record, c.ledger.application call.app ≠ .ok record

/-- What the open group composes, if one is open. -/
def composition (c : Chain) : Option (Option (List InnerParams)) :=
  c.timeline.current.map Group.composing

/-- Whether a chain is another one but for the number of identifiers made. -/
def Recounted (c c' : Chain) : Prop :=
  ∃ counter, c' = { c with timeline := { c.timeline with counter } }

variable {c c' : Chain} {g : Group} {call : AppCall} {p : InnerParams} {e : Fault}
  {record : Application} {address : Address}

theorem MayCompose.composition (h : c.MayCompose g call) : c.composition = some none := by
  rw [Chain.composition, h.current, Option.map_some, h.closed]

theorem MayCompose.activeApp (h : c.MayCompose g call) (composing : Option (List InnerParams)) :
    { g with composing }.activeApp = .ok call.app := by
  obtain ⟨t, ht, hcall⟩ := h.active
  exact Group.activeApp_eq_ok_iff.mpr ⟨t, call, ht, hcall, rfl⟩

/-- What is composed and taken leaves the chain as it was. -/
theorem closed_composed (h : c.MayCompose g call) (ps : List InnerParams) :
    closed (c.composed g ps) { g with composing := some ps } = c := by
  have hg : { g with composing := none } = g := by rw [← h.closed]
  rw [closed, hg, composed, ← h.current]

theorem modifyGroup_beginInner_eq_ok_iff {tl : Timeline} :
    c.timeline.modifyGroup Group.beginInner = .ok tl ↔
      ∃ g call, c.MayCompose g call ∧
        tl = { c.timeline with current := some { g with composing := some [{}] } } := by
  rw [Timeline.modifyGroup, bind_eq_ok_iff]
  simp only [bind_eq_ok_iff, pure_eq_ok_iff, Timeline.group_eq_ok_iff, Group.beginInner_eq_ok_iff]
  constructor
  · rintro ⟨g, hg, _, ⟨hclosed, ⟨t, call, ht, hcall, hkeeps⟩, rfl⟩, rfl⟩
    exact ⟨g, call, ⟨hg, hclosed, ⟨t, ht, hcall⟩, hkeeps⟩, rfl⟩
  · rintro ⟨g, call, ⟨hg, hclosed, ⟨t, ht, hcall⟩, hkeeps⟩, rfl⟩
    exact ⟨g, hg, _, ⟨hclosed, ⟨t, call, ht, hcall, hkeeps⟩, rfl⟩, rfl⟩

/-! ## Three ways to go -/

/-- **NOTHING IS BEGUN** where no call may compose. -/
theorem run_submitSingle_refused (h : ∀ g call, ¬c.MayCompose g call) :
    ∃ e, (submitSingle p).run c = (.error e, c) := by
  cases hbegin : c.timeline.modifyGroup Group.beginInner with
  | ok tl =>
      obtain ⟨g, call, hmay, -⟩ := modifyGroup_beginInner_eq_ok_iff.mp hbegin
      exact absurd hmay (h g call)
  | error e => exact ⟨e, by rw [submitSingle, run_get_bind, hbegin, run_lift_bind]⟩

/-- A single submission that has begun is the submission of one transaction. -/
theorem run_submitSingle_begun (h : c.MayCompose g call) :
    (submitSingle p).run c =
      match submitInner.run (c.composed g [p]) with
      | (.ok submitted, c') =>
          (match submitted.getLast? with
            | some t => return t
            | none => throw .emptyInnerGroup : ChainAction Transaction).run c'
      | (.error e, c') => (.error e, c') := by
  have hbegin := modifyGroup_beginInner_eq_ok_iff.mpr ⟨g, call, h, rfl⟩
  have hreplace : (Timeline.modifyGroup
        { c.timeline with current := some { g with composing := some [{}] } }
        fun g => g.replaceInner p)
      = .ok { c.timeline with current := some { g with composing := some [p] } } := rfl
  simp only [submitSingle, run_get_bind, hbegin, run_lift_bind, hreplace, run_modify_bind]
  rw [run_bind, composed]
  rcases submitInner.run _ with ⟨e | submitted, c'⟩ <;> rfl

/-- **WHAT IS BEGUN STAYS OPEN** when the application of the call is not in the ledger. -/
theorem run_submitSingle_orphaned (h : c.MayCompose g call)
    (hunknown : c.ledger.application call.app = .error e) :
    (submitSingle p).run c = (.error e, c.composed g [p]) := by
  have hgroup : (c.composed g [p]).timeline.group = .ok { g with composing := some [p] } := rfl
  have hunknown : (c.composed g [p]).ledger.application call.app = .error e := hunknown
  have hstage : stageInner.run (c.composed g [p]) = (.error e, c.composed g [p]) := by
    rw [stageInner, run_get_bind, hgroup, run_lift_bind]
    simp only [h.activeApp, run_lift_bind, hunknown]
  rw [run_submitSingle_begun h, submitInner, run_bind, hstage]

/-- What is composed is taken before it is staged. -/
theorem run_stageInner_composed (h : c.MayCompose g call)
    (hrecord : c.ledger.application call.app = .ok record) :
    stageInner.run (c.composed g [p]) = (stage record.address [p]).run c := by
  have hgroup : (c.composed g [p]).timeline.group = .ok { g with composing := some [p] } := rfl
  have hrecord : (c.composed g [p]).ledger.application call.app = .ok record := hrecord
  have htake : (takeComposing { g with composing := some [p] }).run (c.composed g [p])
      = (.ok [p], c) := by
    refine yields_takeComposing_iff.mpr ⟨rfl, Nat.le_add_left 1 15, ?_⟩
    rw [closed_composed h]
  rw [stageInner, run_get_bind, hgroup, run_lift_bind]
  simp only [h.activeApp, run_lift_bind, hrecord]
  rw [run_bind, htake]

/-- **WHAT IS BEGUN IS CLOSED AGAIN** when the application of the call is in the ledger: a failure
    leaves everything as it was but the number of identifiers made, and behind a success the same
    call may compose again. -/
theorem run_submitSingle_issuing (h : c.MayCompose g call)
    (hrecord : c.ledger.application call.app = .ok record) :
    (∃ e c', (submitSingle p).run c = (.error e, c') ∧ Recounted c c') ∨
      ∃ t submitted c' g', (submitSingle p).run c = (.ok t, c') ∧
        Yields submitInner (c.composed g [p]) submitted c' ∧
        c'.MayCompose g' { call with inner := call.inner ++ submitted } := by
  rw [run_submitSingle_begun h]
  rcases hsubmit : submitInner.run (c.composed g [p]) with ⟨e | submitted, c'⟩
  · left
    have hstage := stageInner_of_failed_submitInner hsubmit
    rw [run_stageInner_composed h hrecord] at hstage
    have hrecounted : Ends (stage record.address [p]) c (Recounted c) :=
      ends_stage fun counter => ⟨counter, rfl⟩
    rw [Ends, hstage] at hrecounted
    exact ⟨e, c', rfl, hrecounted⟩
  · right
    obtain ⟨g', t, call', hg', -, ht, hcall', hcurrent⟩ := issued_of_yields_submitInner hsubmit
    -- the issuer is the call that has begun
    obtain rfl := Option.some.inj hg'
    obtain ⟨t', ht', hcall⟩ := h.active
    obtain rfl := Option.some.inj (ht.symm.trans ht')
    obtain rfl := Body.call.inj (hcall.symm.trans hcall')
    obtain ⟨s, c₁, hstaged, hcommit⟩ := yields_bind.mp hsubmit
    rw [Yields, run_stageInner_composed h hrecord] at hstaged
    obtain ⟨hadd, -, rfl⟩ := yields_stage_iff.mp hstaged
    have hdone := hcommit.symm.trans (yields_commitInner s h.current ht hcall)
    obtain rfl := Except.ok.inj (Prod.mk.inj hdone).1
    have hne := Staging.done_ne_nil_of_addAll hadd
    refine ⟨s.done.getLast hne, s.done, c', _, ?_, hsubmit, hcurrent, rfl, ?_, h.keepsState⟩
    · dsimp only
      rw [List.getLast?_eq_some_getLast hne]
      rfl
    · exact ⟨_, List.getElem?_set_self (List.getElem?_eq_some_iff.mp ht).1, rfl⟩

/-! ## What is left under composition -/

theorem Recounted.composition (h : Recounted c c') : c'.composition = c.composition := by
  obtain ⟨counter, rfl⟩ := h
  rfl

theorem exists_of_not_orphaned (h : c.MayCompose g call) (hknown : ¬c.Orphaned) :
    ∃ record, c.ledger.application call.app = .ok record := by
  by_contra hnone
  exact hknown ⟨g, call, h, not_exists.mp hnone⟩

/-- A composition that is open is nobody's to begin. -/
theorem run_submitSingle_composed (q : InnerParams) :
    (submitSingle q).run (c.composed g [p]) = (.error .alreadyComposing, c.composed g [p]) := rfl

/-- **SINGLE SUBMISSIONS LEAVE NOTHING OPEN** unless the application of the call that composes is
    not in the ledger.  When it is, or when no call may compose, the composition is behind a single
    submission, successful or failing, what it was before, and a failure changes nothing but the
    number of identifiers made.  When it is not, the submission fails for that reason and what it
    has begun stays open, so that every other single submission fails as well. -/
theorem composition_submitSingle_iff (c : Chain) (p : InnerParams) :
    (Ends (submitSingle p) c (fun c' => c'.composition = c.composition) ↔ ¬c.Orphaned) ∧
      (¬c.Orphaned → ∀ e c', (submitSingle p).run c = (.error e, c') → Recounted c c') ∧
      (c.Orphaned → ∃ g, ∃ call : AppCall,
        (submitSingle p).run c = (.error (.unknownApplication call.app), c.composed g [p]) ∧
        ∀ q, (submitSingle q).run (c.composed g [p])
          = (.error .alreadyComposing, c.composed g [p])) := by
  have hstrands : c.Orphaned → ∃ g call, c.MayCompose g call ∧
      (submitSingle p).run c = (.error (.unknownApplication call.app), c.composed g [p]) := by
    rintro ⟨g, call, hmay, hnone⟩
    exact ⟨g, call, hmay, run_submitSingle_orphaned hmay (Ledger.application_of_ne_ok hnone)⟩
  have hkeeps : ¬c.Orphaned → Ends (submitSingle p) c (fun c' => c'.composition = c.composition) ∧
      ∀ e c', (submitSingle p).run c = (.error e, c') → Recounted c c' := by
    intro hknown
    -- a composition is opened, with an application to issue it, or refused
    by_cases hmay : ∃ g call, c.MayCompose g call
    · obtain ⟨g, call, hmay⟩ := hmay
      obtain ⟨record, hrecord⟩ := exists_of_not_orphaned hmay hknown
      obtain ⟨e, c', hrun, hc'⟩ | ⟨t, submitted, c', g', hrun, -, hmay'⟩ :=
        run_submitSingle_issuing (p := p) hmay hrecord
      · refine ⟨by rw [Ends, hrun]; exact hc'.composition, fun e c' h => ?_⟩
        cases hrun.symm.trans h
        exact hc'
      · refine ⟨?_, fun e c' h => ?_⟩
        · rw [Ends, hrun]
          exact hmay'.composition.trans hmay.composition.symm
        · cases hrun.symm.trans h
    · obtain ⟨e, hrun⟩ := run_submitSingle_refused (p := p) fun g call h => hmay ⟨g, call, h⟩
      refine ⟨by rw [Ends, hrun], fun e c' h => ?_⟩
      cases hrun.symm.trans h
      exact ⟨c.timeline.counter, rfl⟩
  refine ⟨⟨?_, fun h => (hkeeps h).1⟩, fun h => (hkeeps h).2, ?_⟩
  · rintro hsame horphaned
    obtain ⟨g, call, hmay, hrun⟩ := hstrands horphaned
    rw [Ends, hrun, hmay.composition] at hsame
    cases hsame
  · intro horphaned
    obtain ⟨g, call, -, hrun⟩ := hstrands horphaned
    exact ⟨g, call, hrun, run_submitSingle_composed⟩

/-- A chain on which an application is called that was never created. -/
def uncreated : Chain := { calling with ledger := Ledger.new {} }

theorem orphaned_uncreated : uncreated.Orphaned := by
  have hmay : uncreated.MayCompose _ _ := {
    current := rfl
    closed := rfl
    active := ⟨_, rfl, rfl⟩
    keepsState := by decide }
  refine ⟨_, _, hmay, fun record h => ?_⟩
  cases h

theorem not_orphaned_calling : ¬calling.Orphaned := by
  rintro ⟨g, call, hmay, hnone⟩
  obtain ⟨t, ht, hcall⟩ := hmay.active
  cases hmay.current
  cases ht
  cases hcall
  have hknown : (calling.ledger.application 1001).isOk = true := rfl
  rw [Ledger.application_of_ne_ok hnone] at hknown
  cases hknown

/-- A payment stays composed for the application that was never created, and a change of an unknown
    asset does not for the one that was. -/
theorem composition_submitSingle_iff_uncreated :
    let payment : InnerParams := { body := .payment {} }
    let change : InnerParams := { body := .assetConfig { asset := 5 } }
    (¬Ends (submitSingle payment) uncreated (fun c => c.composition = uncreated.composition) ∧
      ∃ g, ∃ call : AppCall, (submitSingle payment).run uncreated
          = (.error (.unknownApplication call.app), uncreated.composed g [payment]) ∧
        ∀ q, (submitSingle q).run (uncreated.composed g [payment])
          = (.error .alreadyComposing, uncreated.composed g [payment])) ∧
    Ends (submitSingle change) calling (fun c => c.composition = calling.composition) ∧
      ∃ e c, (submitSingle change).run calling = (.error e, c) ∧ Recounted calling c := by
  intro payment change
  obtain ⟨hopen, -, hstays⟩ := composition_submitSingle_iff uncreated payment
  obtain ⟨hclosed, hfails, -⟩ := composition_submitSingle_iff calling change
  have hrefused : ((submitSingle change).run calling).1.isOk = false := by decide +kernel
  refine ⟨⟨fun h => hopen.mp h orphaned_uncreated, hstays orphaned_uncreated⟩,
    hclosed.mpr not_orphaned_calling, ?_⟩
  rcases hrun : (submitSingle change).run calling with ⟨e | t, c⟩
  · exact ⟨e, c, rfl, hfails not_orphaned_calling e c hrun⟩
  · rw [hrun] at hrefused
    cases hrefused

/-- **A SINGLE SUBMISSION CAN STAY OPEN**, although it has failed. -/
theorem composition_stays_open :
    ¬∀ (c : Chain) (p : InnerParams), c.timeline.current.isSome = true →
      Ends (submitSingle p) c fun c' => c'.composition = c.composition := by
  intro hall
  obtain ⟨g, call, hmay, hnone⟩ := orphaned_uncreated
  have hsame := hall uncreated {} rfl
  rw [Ends, run_submitSingle_orphaned hmay (Ledger.application_of_ne_ok hnone),
    hmay.composition] at hsame
  cases hsame

end Chain

end AvmSandbox
