import AvmSandbox.Proofs.Group
import AvmSandbox.Submission

/-! # Submission — inner groups take effect as a whole

    Whatever can go wrong goes wrong while an inner group is staged, on a copy
    of the ledger.  Until then nothing has changed but the composition, which is
    closed, and the number of identifiers made; and when the staged ledger takes
    the place of the real one, nothing that follows can fail.

    * `recorded_stageInner`: staging leaves ledger, groups and history alone;
    * `yields_stageInner_iff`: when staging succeeds, and where it ends;
    * `applyAll_of_addAll`: the staged ledger has the effects of each transaction
      composed, in order, and of none that they carry;
    * `submitInner_all_or_nothing`: the submission as a whole. -/

namespace AvmSandbox

open AvmSandbox.Action

/-! ## Effects in order -/

/-- The effects of transactions on a ledger, one after the other. -/
def applyAll : List Transaction → Ledger → Result Ledger
  | [], l => .ok l
  | t :: ts, l => do
      let (_, l) ← applyEffects t l
      applyAll ts l

/-- The transactions that composed fields form, each in its place behind those it carries, when
    `start` stand before them and `counter` identifiers were made. -/
def InnerParams.form (issuer : Address) : Nat → Nat → List InnerParams → List Transaction
  | _, _, [] => []
  | start, counter, p :: ps =>
      let position := start + p.nested.length
      let id := transactionId (p.sender.getD issuer) position (counter + 1)
      p.withoutNested.toTransaction issuer position id ::
        form issuer (position + 1) (counter + 1) ps

namespace Staging

variable {issuer : Address} {observers : List Observer} {s s' : Staging} {u : Unit}

/-- A transaction joins the group when its effects succeed and no observer fails. -/
theorem yields_add_iff {p : InnerParams} :
    Yields (add issuer observers p) s u s' ↔
      ∃ t l t', applyEffects (p.withoutNested.toTransaction issuer (s.done.length + p.nested.length)
          (transactionId (p.sender.getD issuer) (s.done.length + p.nested.length)
            (s.counter + 1))) s.ledger = .ok (t, l) ∧
        Observer.notify observers t = .ok t' ∧
        s' = ⟨l, s.done ++ Group.number s.done.length p.nested ++ [t'], s.counter + 1⟩ := by
  simp only [add, yields_get_bind, yields_set_bind, yields_lift_bind, yields_set,
    List.length_append, Group.length_number]
  constructor
  · rintro ⟨⟨t, l⟩, heffects, t', hnotify, rfl⟩
    exact ⟨t, l, t', heffects, hnotify, rfl⟩
  · rintro ⟨t, l, t', heffects, hnotify, rfl⟩
    exact ⟨(t, l), heffects, t', hnotify, rfl⟩

/-- The staged ledger has the effects of the transactions composed, in order. -/
theorem applyAll_of_addAll {ps : List InnerParams}
    (h : Yields (addAll issuer observers ps) s u s') :
    applyAll (InnerParams.form issuer s.done.length s.counter ps) s.ledger = .ok s'.ledger := by
  induction ps generalizing s with
  | nil =>
      obtain ⟨-, rfl⟩ := yields_pure.mp h
      rfl
  | cons p ps ih =>
      obtain ⟨_, middle, hadd, hrest⟩ := yields_bind.mp h
      obtain ⟨t, l, t', heffects, -, rfl⟩ := yields_add_iff.mp hadd
      have hrest := ih hrest
      rw [InnerParams.form, applyAll, heffects]
      simp only [List.length_append, Group.length_number, List.length_singleton] at hrest
      exact hrest

end Staging

namespace Chain

/-! ## Staging -/

/-- A chain but for what is being composed and the number of identifiers made. -/
def recorded (c : Chain) : Chain :=
  { c with
    timeline :=
      { c.timeline with
        counter := 0
        current := c.timeline.current.map fun g => { g with composing := none } } }

theorem recorded_counter (c : Chain) (counter : Nat) :
    recorded { c with timeline := { c.timeline with counter } } = recorded c := rfl

/-- A chain whose open group composes nothing. -/
def closed (c : Chain) (g : Group) : Chain :=
  { c with timeline := { c.timeline with current := some { g with composing := none } } }

theorem recorded_closed {c : Chain} {g : Group} (hg : c.timeline.current = some g) :
    recorded (closed c g) = recorded c := by
  simp [recorded, closed, hg]

/-- Taking the transactions composed closes the composition, also when they are too many. -/
theorem ends_takeComposing {c : Chain} {g : Group} {P : Chain → Prop} (h : P c)
    (hclosed : P (closed c g)) : Ends (takeComposing g) c P := by
  rw [takeComposing]
  cases g.composing with
  | none => exact h
  | some params =>
      simp only [ends_modify_bind]
      exact ends_unless hclosed fun _ => hclosed

theorem yields_takeComposing_iff {c c' : Chain} {g : Group} {params : List InnerParams} :
    Yields (takeComposing g) c params c' ↔
      g.composing = some params ∧ params.length ≤ Limits.group ∧ c' = closed c g := by
  rw [takeComposing]
  cases g.composing with
  | none => simp
  | some given =>
      simp only [yields_modify_bind, yields_unless, yields_pure, Option.some.injEq, Nat.not_lt]
      constructor
      · rintro ⟨hle, rfl, rfl⟩
        exact ⟨rfl, hle, rfl⟩
      · rintro ⟨rfl, hle, rfl⟩
        exact ⟨hle, rfl, rfl⟩

/-- Staging changes the number of identifiers made and nothing else. -/
theorem ends_stage {issuer : Address} {params : List InnerParams} {c : Chain} {P : Chain → Prop}
    (h : ∀ counter, P { c with timeline := { c.timeline with counter } }) :
    Ends (stage issuer params) c P := by
  rw [stage, ends_get_bind]
  rcases (Staging.addAll issuer c.timeline.observers params).run _ with ⟨result, s⟩
  rw [ends_modify_bind]
  refine ends_lift_bind (h _) fun _ _ => ends_unless (h _) fun _ => ?_
  exact h s.counter

theorem yields_stage_iff {issuer : Address} {params : List InnerParams} {c c' : Chain}
    {s : Staging} :
    Yields (stage issuer params) c s c' ↔
      Yields (Staging.addAll issuer c.timeline.observers params)
          { ledger := c.ledger, counter := c.timeline.counter } () s ∧
        s.done.length ≤ Limits.group ∧
        c' = { c with timeline := { c.timeline with counter := s.counter } } := by
  rw [stage, yields_get_bind, Yields.eq_def (Staging.addAll _ _ _)]
  rcases (Staging.addAll issuer c.timeline.observers params).run _ with ⟨result, staged⟩
  simp only [yields_modify_bind, yields_lift_bind, yields_unless, yields_pure, Nat.not_lt]
  constructor
  · rintro ⟨_, rfl, hle, rfl, rfl⟩
    exact ⟨rfl, hle, rfl⟩
  · rintro ⟨hadd, hle, rfl⟩
    cases hadd
    exact ⟨(), rfl, hle, rfl, rfl⟩

/-- Staging, however it ends, has done no more than close the composition and make identifiers. -/
theorem ends_stageInner {c : Chain} {P : Chain → Prop} (h : P c)
    (hclosed : ∀ g, c.timeline.current = some g → P (closed c g))
    (hcounter : ∀ c counter, P c → P { c with timeline := { c.timeline with counter } }) :
    Ends stageInner c P := by
  rw [stageInner, ends_get_bind]
  refine ends_lift_bind h fun g hg => ?_
  refine ends_lift_bind h fun app _ => ends_lift_bind h fun record _ => ?_
  refine ends_bind (ends_takeComposing h (hclosed g (Timeline.group_eq_ok_iff.mp hg)))
    (fun _ h => h) fun params c' h => ?_
  exact ends_stage fun counter => hcounter c' counter h

/-- **STAGING TOUCHES NOTHING THAT IS RECORDED**, however it ends. -/
theorem recorded_stageInner (c : Chain) :
    Ends stageInner c fun c' => recorded c' = recorded c :=
  ends_stageInner rfl (fun _ hg => recorded_closed hg)
    fun c' counter h => (recorded_counter c' counter).trans h

/-- Staging succeeds when all lookups do, every transaction composed can be added, and the group
    they make is not too large. -/
theorem yields_stageInner_iff {c c' : Chain} {s : Staging} :
    Yields stageInner c s c' ↔
      ∃ g app record params, c.timeline.current = some g ∧ g.activeApp = .ok app ∧
        c.ledger.application app = .ok record ∧ g.composing = some params ∧
        params.length ≤ Limits.group ∧
        Yields (Staging.addAll record.address c.timeline.observers params)
          { ledger := c.ledger, counter := c.timeline.counter } () s ∧
        s.done.length ≤ Limits.group ∧
        c' = { c with
          timeline :=
            { c.timeline with
              current := some { g with composing := none }
              counter := s.counter } } := by
  rw [stageInner, yields_get_bind]
  simp only [yields_lift_bind, Timeline.group_eq_ok_iff]
  simp only [yields_bind, yields_takeComposing_iff, yields_stage_iff]
  constructor
  · rintro ⟨g, hg, app, happ, record, hrecord, params, _, ⟨hparams, hle, rfl⟩, hadd, hdone, rfl⟩
    exact ⟨g, app, record, params, hg, happ, hrecord, hparams, hle, hadd, hdone, rfl⟩
  · rintro ⟨g, app, record, params, hg, happ, hrecord, hparams, hle, hadd, hdone, rfl⟩
    exact ⟨g, hg, app, happ, record, hrecord, params, _, ⟨hparams, hle, rfl⟩, hadd, hdone, rfl⟩

/-! ## Committing -/

/-- **A COMMIT DOES NOT FAIL** once the issuer is an application call. -/
theorem yields_commitInner {c : Chain} {g : Group} {t : Transaction} {call : AppCall} (s : Staging)
    (hg : c.timeline.current = some g) (ht : g.transactions[g.active]? = some t)
    (hcall : t.body = .call call) :
    Yields (commitInner s) c s.done
      { ledger := s.ledger
        timeline :=
          { c.timeline with
            current := some { g with
              transactions := g.transactions.set g.active
                { t with body := .call { call with inner := call.inner ++ s.done } }
              innerGroups := g.innerGroups ++ [s.done] } } } := by
  have hpush : g.pushInnerGroup s.done = .ok { g with
      transactions := g.transactions.set g.active
        { t with body := .call { call with inner := call.inner ++ s.done } }
      innerGroups := g.innerGroups ++ [s.done] } := by
    obtain ⟨header, body⟩ := t
    obtain rfl : body = .call call := hcall
    rw [Group.pushInnerGroup, Group.activeForChange, ht]
    rfl
  rw [commitInner]
  simp only [yields_modify_bind, yields_get_bind, yields_lift_bind, Timeline.group_eq_ok_iff]
  refine ⟨g, hg, _, hpush, ?_⟩
  rw [yields_lift]
  exact ⟨by simp [Group.lastInnerGroup], rfl⟩

/-! ## Submission as a whole -/

/-- Chains with the same records have the same ledger and show the same transactions and inner
    groups in the open group. -/
theorem eq_of_recorded {c c' : Chain} (h : recorded c' = recorded c) :
    c'.ledger = c.ledger ∧
      c'.timeline.current.map Group.innerGroups = c.timeline.current.map Group.innerGroups ∧
      c'.timeline.current.map Group.transactions = c.timeline.current.map Group.transactions := by
  have hcurrent := congrArg (fun c => c.timeline.current) h
  refine ⟨?_, ?_, ?_⟩
  · show (recorded c').ledger = (recorded c).ledger
    rw [h]
  · simpa [recorded, Function.comp_def] using congrArg (Option.map Group.innerGroups) hcurrent
  · simpa [recorded, Function.comp_def] using congrArg (Option.map Group.transactions) hcurrent

/-- **SUBMISSION IS ALL OR NOTHING.**  When it fails, the ledger, the inner groups submitted and
    the transactions of the open group, with all that they have issued, are as before.  When it
    succeeds, the ledger has the effects of the transactions composed, in order, one inner group
    was added, which the active call has issued, and the composition is closed.  Once staging has
    succeeded, the commit does not fail. -/
theorem submitInner_all_or_nothing (c : Chain) :
    (match submitInner.run c with
      | (.error _, c') =>
          c'.ledger = c.ledger ∧
            c'.timeline.current.map Group.innerGroups
              = c.timeline.current.map Group.innerGroups ∧
            c'.timeline.current.map Group.transactions
              = c.timeline.current.map Group.transactions
      | (.ok submitted, c') =>
          ∃ g t call record params, c.timeline.current = some g ∧
            g.transactions[g.active]? = some t ∧ t.body = .call call ∧
            c.ledger.application call.app = .ok record ∧ g.composing = some params ∧
            applyAll (InnerParams.form record.address 0 c.timeline.counter params) c.ledger
              = .ok c'.ledger ∧
            c'.timeline.current = some { g with
              transactions := g.transactions.set g.active
                { t with body := .call { call with inner := call.inner ++ submitted } }
              innerGroups := g.innerGroups ++ [submitted]
              composing := none }) ∧
      ∀ s c₁, stageInner.run c = (.ok s, c₁) →
        c₁.ledger = c.ledger ∧
          ∃ c₂, (commitInner s).run c₁ = (.ok s.done, c₂) ∧ c₂.ledger = s.ledger := by
  have hrecorded : recorded (stageInner.run c).2 = recorded c := recorded_stageInner c
  rw [submitInner, run_bind]
  rcases hstage : stageInner.run c with ⟨e | s, c₁⟩
  · rw [hstage] at hrecorded
    exact ⟨eq_of_recorded hrecorded, fun s _ h => by cases h⟩
  · obtain ⟨g, app, record, params, hg, happ, hrecord, hparams, -, hadd, -, hc₁⟩ :=
      yields_stageInner_iff.mp hstage
    obtain ⟨t, call, ht, hcall, rfl⟩ := Group.activeApp_eq_ok_iff.mp happ
    -- the group is still open behind staging, so the commit finds the issuer where it was
    have hopen : c₁.timeline.current = some { g with composing := none } := by rw [hc₁]
    have hcommit := yields_commitInner s hopen ht hcall
    rw [Yields] at hcommit
    constructor
    · dsimp only
      rw [hcommit]
      exact ⟨g, t, call, record, params, hg, ht, hcall, hrecord, hparams,
        Staging.applyAll_of_addAll hadd, rfl⟩
    · intro s' c₁ h
      cases h
      exact ⟨by rw [hc₁], _, hcommit, rfl⟩

/-- A chain on which a call of application 7 composes inner transactions. -/
def issuing (params : List InnerParams) : Chain where
  ledger := { Ledger.new {} with applications := Table.insert {} 7 (.new 7 .zero {}) }
  timeline :=
    { Timeline.new .index with
      current := some {
        transactions := [.ofCall .zero { app := 7 }]
        active := 0
        scratch := [.fresh]
        composing := some params } }

/-- The creation of an asset takes effect alone, and not with a change of an unknown asset behind
    it. -/
theorem submitInner_all_or_nothing_asset :
    (∃ submitted c', submitInner.run (issuing [{ body := .assetConfig {} }])
        = (.ok submitted, c') ∧
      c'.timeline.current.map Group.innerGroups = some [submitted] ∧
      c'.ledger.nextAssetId = 1002) ∧
    ∃ e c', submitInner.run (issuing [{ body := .assetConfig {} },
        { body := .assetConfig { asset := 5 } }]) = (.error e, c') ∧
      c'.ledger.nextAssetId = 1001 := by
  constructor
  · have hok : (submitInner.run (issuing [{ body := .assetConfig {} }])).1.isOk = true := rfl
    obtain ⟨hsubmit, -⟩ := submitInner_all_or_nothing (issuing [{ body := .assetConfig {} }])
    rcases hrun : submitInner.run (issuing [{ body := .assetConfig {} }]) with ⟨e | submitted, c'⟩
    · rw [hrun] at hok
      cases hok
    · rw [hrun] at hsubmit
      obtain ⟨g, t, call, record, params, hg, ht, hcall, hrecord, hparams, heffects, hcurrent⟩ :=
        hsubmit
      cases hg
      cases ht
      cases hcall
      cases hrecord
      cases hparams
      have hledger := Except.ok.inj heffects
      exact ⟨submitted, c', rfl, by rw [hcurrent]; rfl, by rw [← hledger]; rfl⟩
  · have hfails : (submitInner.run (issuing [{ body := .assetConfig {} },
        { body := .assetConfig { asset := 5 } }])).1.isOk = false := rfl
    obtain ⟨hsubmit, -⟩ := submitInner_all_or_nothing (issuing [{ body := .assetConfig {} },
      { body := .assetConfig { asset := 5 } }])
    rcases hrun : submitInner.run (issuing [{ body := .assetConfig {} },
      { body := .assetConfig { asset := 5 } }]) with ⟨e | submitted, c'⟩
    · rw [hrun] at hsubmit
      exact ⟨e, c', rfl, by rw [hsubmit.1]; rfl⟩
    · rw [hrun] at hfails
      cases hfails

end Chain

end AvmSandbox
