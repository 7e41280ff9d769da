import AvmSandbox.Proofs.Chain.Submission
import AvmSandbox.Proofs.Sandbox.Session
import Mathlib.Data.List.Forall2

/-! # Scopes — nested in any way, with failures anywhere

    Scopes, ensured scopes and method calls nest, contain the steps of contracts,
    and may fail at any point; a body may also go on behind a failure.  A group
    that a scope opens is finished once, by its own scope or by an ensured scope
    inside that has found it without transactions, and then stays as it is.

    * `Timeline.Grows`: what any part of a program does to the groups;
    * `Operation` and `Script`: the programs, as trees, and how they run;
    * `Script.spans`: the scopes that have opened a group in a run;
    * `disciplined_run`: by induction on the tree;
    * `Script.scope_discipline`: the groups behind a whole program. -/

namespace AvmSandbox

open AvmSandbox.Action

/-! ## Growth -/

namespace Timeline

/-- What a part of a program does to the groups, when `opened` are the groups that it opens, in
    order: each of these, and the group that was open before, joins the history or is the open
    one, and a group with transactions that was open before still is. -/
structure Grows (before after : Timeline) (opened : List Group) : Prop where
  recorded : ∃ finished, after.history = before.history ++ finished ∧
    List.Forall₂ Group.Continues (before.current.toList ++ opened)
      (finished ++ after.current.toList)
  closed : before.current = none → after.current = none
  kept : before.hasGroup = true → after.hasGroup = true ∧ after.history = before.history

variable {tl tl' tl'' : Timeline} {opened opened' : List Group}

theorem forall₂_continues_refl (groups : List Group) :
    List.Forall₂ Group.Continues groups groups :=
  List.forall₂_same.mpr fun g _ => .refl g

/-- Groups of the past that go on twice go on. -/
theorem forall₂_continues_trans {gs gs' gs'' : List Group}
    (h : List.Forall₂ Group.Continues gs gs') (h' : List.Forall₂ Group.Continues gs' gs'') :
    List.Forall₂ Group.Continues gs gs'' := by
  induction h generalizing gs'' with
  | nil => exact h'
  | cons hg _ ih =>
      cases h' with
      | cons hg' hrest => exact .cons (hg.trans hg') (ih hrest)

/-- Where the groups are the same nothing has been opened. -/
theorem Grows.of_same (hcurrent : tl'.current = tl.current) (hhistory : tl'.history = tl.history) :
    tl.Grows tl' [] where
  recorded := by
    refine ⟨[], by rw [hhistory, List.append_nil], ?_⟩
    rw [hcurrent, List.append_nil, List.nil_append]
    exact forall₂_continues_refl _
  closed := fun h => hcurrent.trans h
  kept := fun h => ⟨by rwa [hasGroup, hcurrent], hhistory⟩

theorem Grows.refl (tl : Timeline) : tl.Grows tl [] := .of_same rfl rfl

/-- The open group takes a step. -/
theorem Grows.of_continues {g g' : Group} (hg : tl.current = some g) (h : g.Continues g') :
    tl.Grows { tl with current := some g' } [] where
  recorded := by
    refine ⟨[], (List.append_nil _).symm, ?_⟩
    rw [hg]
    exact .cons h .nil
  closed := fun hnone => by
    rw [hnone] at hg
    cases hg
  kept := fun hopen => by
    rw [hasGroup, hg] at hopen
    refine ⟨?_, rfl⟩
    show (!g'.isEmpty) = true
    rwa [h.isEmpty_eq]

/-- **GROWTH COMPOSES**, so that a sequence opens what its parts open. -/
theorem Grows.trans (h : tl.Grows tl' opened) (h' : tl'.Grows tl'' opened') :
    tl.Grows tl'' (opened ++ opened') where
  recorded := by
    obtain ⟨finished, hhistory, hgroups⟩ := h.recorded
    obtain ⟨finished', hhistory', hgroups'⟩ := h'.recorded
    refine ⟨finished ++ finished', ?_, ?_⟩
    · rw [hhistory', hhistory, List.append_assoc]
    · have hfirst : List.Forall₂ Group.Continues (tl.current.toList ++ opened ++ opened')
          (finished ++ tl'.current.toList ++ opened') :=
        List.rel_append hgroups (forall₂_continues_refl opened')
      have hsecond : List.Forall₂ Group.Continues (finished ++ (tl'.current.toList ++ opened'))
          (finished ++ (finished' ++ tl''.current.toList)) :=
        List.rel_append (forall₂_continues_refl finished) hgroups'
      rw [List.append_assoc] at hfirst
      rw [← List.append_assoc] at hsecond
      rw [List.append_assoc]
      exact forall₂_continues_trans hfirst hsecond
  closed := fun hnone => h'.closed (h.closed hnone)
  kept := fun hopen => by
    obtain ⟨hopen', hhistory⟩ := h.kept hopen
    obtain ⟨hopen'', hhistory'⟩ := h'.kept hopen'
    exact ⟨hopen'', hhistory'.trans hhistory⟩

/-- The past is added to at its end. -/
theorem Grows.history_prefix (h : tl.Grows tl' opened) : tl.history <+: tl'.history := by
  obtain ⟨finished, hhistory, -⟩ := h.recorded
  exact ⟨finished, hhistory.symm⟩

theorem current_of_hasGroup (h : tl.hasGroup = true) : ∃ g, tl.current = some g := by
  rw [hasGroup] at h
  cases hcurrent : tl.current with
  | none =>
      rw [hcurrent] at h
      cases h
  | some g => exact ⟨g, rfl⟩

/-- Finishing a group without transactions, or none. -/
theorem Grows.finished (h : tl.hasGroup = false) : tl.Grows tl.finished [] where
  recorded := ⟨tl.current.toList, rfl, by
    rw [Timeline.finished, Option.toList_none]
    exact forall₂_continues_refl _⟩
  closed := fun _ => rfl
  kept := fun hopen => by
    rw [h] at hopen
    cases hopen

/-- A change under which a group goes on opens none. -/
theorem Grows.of_modifyGroup {f : Group → Result Group}
    (hf : ∀ g g', f g = .ok g' → g.Continues g') (h : tl.modifyGroup f = .ok tl') :
    tl.Grows tl' [] := by
  obtain ⟨g, hg, h⟩ := bind_eq_ok_iff.mp h
  obtain ⟨g', hg', h⟩ := bind_eq_ok_iff.mp h
  obtain rfl := pure_eq_ok_iff.mp h
  exact .of_continues (group_eq_ok_iff.mp hg) (hf g g' hg')

end Timeline

/-! ## Steps -/

namespace Chain

/-- Chains with the same records have the same groups but for what is being composed. -/
theorem grows_of_recorded {c c' : Chain} (h : recorded c' = recorded c) :
    c.timeline.Grows c'.timeline [] := by
  have hhistory : c'.timeline.history = c.timeline.history :=
    congrArg (fun c => c.timeline.history) h
  have hcurrent := congrArg (fun c => c.timeline.current) h
  simp only [recorded] at hcurrent
  cases hg : c.timeline.current with
  | none =>
      rw [hg, Option.map_none, Option.map_eq_none_iff] at hcurrent
      exact .of_same (hcurrent.trans hg.symm) hhistory
  | some g =>
      rw [hg, Option.map_some, Option.map_eq_some_iff] at hcurrent
      obtain ⟨g', hg', hsame⟩ := hcurrent
      rw [Group.mk.injEq] at hsame
      obtain ⟨htransactions, hactive, -, hinner, -⟩ := hsame
      have hsame : g.Continues g' :=
        ⟨by rw [htransactions], hactive, [], by rw [List.append_nil, hinner]⟩
      exact (Timeline.Grows.of_continues hg hsame).trans (.of_same hg' hhistory)

/-- A submission adds to the open group and opens none, successful or failing. -/
theorem grows_submitInner (c : Chain) :
    Ends submitInner c fun c' => c.timeline.Grows c'.timeline [] := by
  refine ends_bind (ends_mono (recorded_stageInner c) fun c' h => grows_of_recorded h)
    (fun _ h => h) fun s c' h => ?_
  rw [commitInner, ends_modify_bind, ends_get_bind]
  refine ends_lift_bind h fun g hg => ends_lift_bind h fun g' hg' => ?_
  rw [ends_modify_bind]
  have hopen := Timeline.group_eq_ok_iff.mp hg
  exact h.trans (.of_continues hopen (Group.continues_pushInnerGroup hg'))

/-- A single submission does no more than begin, compose and submit. -/
theorem grows_submitSingle (p : InnerParams) (c : Chain) :
    Ends (submitSingle p) c fun c' => c.timeline.Grows c'.timeline [] := by
  rw [submitSingle, ends_get_bind]
  refine ends_lift_bind (.refl _) fun tl htl => ends_lift_bind (.refl _) fun tl' htl' => ?_
  have hbegin := Timeline.Grows.of_modifyGroup (fun g g' h => Group.continues_beginInner h) htl
  have hreplace := Timeline.Grows.of_modifyGroup (fun g g' h => Group.continues_modifyInner h) htl'
  rw [ends_modify_bind]
  refine ends_bind (ends_mono (grows_submitInner _) fun c' h => (hbegin.trans hreplace).trans h)
    (fun _ h => h) fun ts c' h => ?_
  split <;> exact h

end Chain

namespace Run

variable {ω α β : Type}

/-- Whether an action opens and finishes no group, however it ends. -/
def Stays (action : Run ω α) : Prop :=
  ∀ x, Ends action x fun y => x.timeline.Grows y.timeline []

/-- A sequence stays in the group when its steps do. -/
theorem stays_bind {action : Run ω α} {next : α → Run ω β} (h : Stays action)
    (hnext : ∀ a, Stays (next a)) : Stays (action >>= next) := fun x =>
  ends_bind_trans Timeline.Grows.trans (h x) hnext

/-- An action that leaves the session alone stays in the group. -/
theorem stays_read {action : Run ω α} (h : ∀ x, (action.run x).2 = x) : Stays action := fun x => by
  rw [Ends, h]
  exact .refl _

/-- A change of the ledger is none of the groups. -/
theorem stays_onLedger (f : Ledger → Result Ledger) : Stays (onLedger f : Run ω Unit) := fun _ =>
  ends_onLedger (.refl _) fun _ _ => .refl _

/-- A change under which the open group goes on stays in it. -/
theorem stays_onGroup {f : Group → Result Group} (hf : ∀ g g', f g = .ok g' → g.Continues g') :
    Stays (onGroup f : Run ω Unit) := fun _ =>
  ends_onTimeline (.refl _) fun _ htl => .of_modifyGroup hf htl

/-- What leaves the identity of the active transaction stays in the group. -/
theorem stays_onActiveTransaction {action : Amending α}
    (h : ∀ t, Ends action t fun t' => t'.identity = t.identity) :
    Stays (onActiveTransaction action : Run ω α) := fun _ =>
  ends_onActiveTransaction (.refl _) fun _ t hg ht =>
    .of_continues hg (Group.continues_setActiveTransaction ht (h t))

/-- What opens no group on the chain stays in the group. -/
theorem stays_onChain {action : ChainAction α}
    (h : ∀ c, Ends action c fun c' => c.timeline.Grows c'.timeline []) :
    Stays (onChain action : Run ω α) := fun x => by
  rw [Ends, run_onChain]
  exact h ⟨x.ledger, x.timeline⟩

theorem stays_submitInner : Stays (submitInner : Run ω (List Transaction)) :=
  stays_onChain Chain.grows_submitInner

theorem stays_submitSingle (p : InnerParams) : Stays (submitSingle p : Run ω Transaction) :=
  stays_onChain (Chain.grows_submitSingle p)

/-- Recording a returned value changes the log of the active call and that of its application. -/
theorem stays_recordReturn (app : UInt64) (e : EncodedValue) :
    Stays (recordReturn app e : Run ω Unit) := by
  refine stays_bind (stays_onActiveTransaction ?_) fun _ => stays_onLedger _
  refine Transaction.identity_modifyCall fun c c' hc => ?_
  obtain ⟨log, -, hc⟩ := bind_eq_ok_iff.mp hc
  obtain rfl := pure_eq_ok_iff.mp hc
  rfl

/-- So does concluding a method, whether or not it returned a value. -/
theorem stays_conclude (m : Method) (app : UInt64) (returned : Option Value) :
    Stays (conclude m app returned : Run ω (Option EncodedValue)) := by
  have hunmark : ∀ encoded : Option EncodedValue,
      Stays (do onLedger fun l => l.setCreating app false; return encoded : Run ω _) :=
    fun _ => stays_bind (stays_onLedger _) fun _ => stays_read fun _ => rfl
  refine stays_bind (stays_onActiveTransaction (Transaction.identity_embed _)) fun encoded => ?_
  cases encoded with
  | none => exact hunmark none
  | some e => exact stays_bind (stays_recordReturn app e) fun _ => hunmark (some e)

end Run

/-! ## Programs -/

/-- A step of a contract. -/
inductive Operation : Type → Type where
  | log (entry : Bytes) : Operation Unit
  | storeScratch (slot : Nat) (v : StackValue) : Operation Unit
  | loadScratch (index slot : Nat) : Operation StackValue
  | beginInner : Operation Unit
  | nextInner : Operation Unit
  | assignInner (field : InnerField) : Operation Unit
  | submitInner : Operation (List Transaction)
  | submitSingle (p : InnerParams) : Operation Transaction

namespace Operation

variable {ω α : Type}

def run : Operation α → Run ω α
  | log entry => Run.log entry
  | storeScratch slot v => Run.storeScratch slot v
  | loadScratch index slot => Run.loadScratch index slot
  | beginInner => Run.beginInner
  | nextInner => Run.nextInner
  | assignInner field => Run.assignInner field
  | submitInner => Run.submitInner
  | submitSingle p => Run.submitSingle p

/-- **A CONTRACT STAYS IN ITS GROUP**, whatever step it takes. -/
theorem stays_run (operation : Operation α) : Run.Stays (operation.run : Run ω α) := by
  cases operation with
  | log entry =>
      refine Run.stays_bind (Run.stays_read fun _ => rfl) fun g => ?_
      refine Run.stays_bind (Run.stays_read fun _ => rfl) fun app => ?_
      refine Run.stays_bind (Run.stays_onGroup ?_) fun _ => Run.stays_onLedger _
      exact fun g g' h => Group.continues_appendLog h
  | storeScratch slot v => exact Run.stays_onGroup fun g g' h => Group.continues_storeScratch h
  | loadScratch index slot =>
      exact Run.stays_bind (Run.stays_read fun _ => rfl) fun g => Run.stays_read fun _ => rfl
  | beginInner => exact Run.stays_onGroup fun g g' h => Group.continues_beginInner h
  | nextInner => exact Run.stays_onGroup fun g g' h => Group.continues_nextInner h
  | assignInner field => exact Run.stays_onGroup fun g g' h => Group.continues_modifyInner h
  | submitInner => exact Run.stays_submitInner
  | submitSingle p => exact Run.stays_submitSingle p

end Operation

/-- A program of scopes and method calls, as a tree.  What a program does beside the groups, a
    failure among others, is an `aside`. -/
inductive Script (ω : Type) : Type → Type 1 where
  | step {α : Type} (operation : Operation α) : Script ω α
  | aside {α : Type} (action : Run ω α)
      (h : ∀ x, Ends action x fun y => y.timeline.current = x.timeline.current ∧
        y.timeline.history = x.timeline.history) : Script ω α
  | bind {α β : Type} (first : Script ω α) (next : α → Script ω β) : Script ω β
  | attempt {α : Type} (body : Script ω α) : Script ω (Result α)
  | scope {α : Type} (items : List GroupItem) (active : Option Nat) (body : Script ω α) : Script ω α
  | ensure {α : Type} (items : List GroupItem) (active : Option Nat) (body : Bool → Script ω α) :
      Script ω α
  | call (call : MethodCall) (body : List Value → Script ω (Option Value)) :
      Script ω (Option EncodedValue)
  | method (m : Method) (body : List Value → Script ω (Option Value)) :
      Script ω (Option EncodedValue)

/-- A scope that has opened a group. -/
structure Span where
  /-- The group as it was opened. -/
  group : Group
  /-- The history at that time. -/
  earlier : List Group
  /-- The timeline when the scope had ended. -/
  after : Timeline

namespace Span

variable {ω α : Type}

/-- The scopes in what follows an action. -/
def behind (action : Run ω α) (next : α → Session ω → List Span) (x : Session ω) : List Span :=
  match action.run x with
  | (.ok a, y) => next a y
  | (.error _, _) => []

/-- The scopes in an action that opens a group for a body, given those in the body. -/
def around (items : List GroupItem) (active : Option Nat) (body : Run ω α)
    (within : Session ω → List Span) (x : Session ω) : List Span :=
  match x.timeline.openGroup items active with
  | .error _ => []
  | .ok tl =>
      let y := x.withTimeline tl
      tl.current.toList.map (⟨·, tl.history, (body.run y).2.timeline.finished⟩) ++ within y

/-- The scopes in an action that goes on in the open group when that has transactions. -/
def ensuring (inside outside : Session ω → List Span) (x : Session ω) : List Span :=
  if x.timeline.hasGroup then inside x else outside x

/-- Whether the group of a scope is in the history once the scope has ended, behind what was
    there before, and no group is open. -/
structure Closed (s : Span) : Prop where
  nothingOpen : s.after.current = none
  recorded : ∃ g later, s.group.Continues g ∧ s.after.history = s.earlier ++ g :: later

end Span

namespace Script

variable {ω α : Type}

/-- Runs a program. -/
def run {α : Type} : Script ω α → Run ω α
  | step operation => operation.run
  | aside action _ => action
  | bind first next => do (next (← first.run)).run
  | attempt body => Run.attempt body.run
  | scope items active body => Run.withScope items active body.run
  | ensure items active body => Run.withEnsuredScope items active fun own => (body own).run
  | call c body => Run.callMethod c fun args => (body args).run
  | method m body => Run.runActive m fun args => (body args).run

/-- The scopes that open a group when a program runs, in the order in which they do. -/
def spans {α : Type} : Script ω α → Session ω → List Span
  | step _, _ => []
  | aside _ _, _ => []
  | bind first next, x =>
      first.spans x ++ Span.behind first.run (fun a => (next a).spans) x
  | attempt body, x => body.spans x
  | scope items active body, x => Span.around items active body.run body.spans x
  | ensure items active body, x =>
      Span.ensuring (body false).spans
        (fun x => Span.around items active (body true).run (body true).spans x.finished) x
  | call c body, x =>
      Span.ensuring (body c.args).spans
        (Span.behind (Run.startCall c) fun d =>
          Span.around [.deferred d] none (Run.runActive c.method fun args => (body args).run)
            (Span.behind (Run.acceptCall c.method) fun accepted => (body accepted.2).spans)) x
  | method m body, x =>
      Span.behind (Run.acceptCall m) (fun accepted => (body accepted.2).spans) x

end Script

/-! ## The groups behind a program -/

/-- What a part of a program does to the groups, given the scopes in it that have opened one. -/
structure Disciplined (before after : Timeline) (spans : List Span) : Prop where
  grows : before.Grows after (spans.map Span.group)
  closed : ∀ s ∈ spans, s.Closed
  kept : ∀ s ∈ spans, s.after.history <+: after.history

namespace Disciplined

variable {tl tl' tl'' : Timeline} {spans spans' : List Span}

/-- Where no scope was entered there is no span. -/
theorem of_grows (h : tl.Grows tl' []) : Disciplined tl tl' [] :=
  ⟨h, fun _ hs => (List.not_mem_nil hs).elim, fun _ hs => (List.not_mem_nil hs).elim⟩

/-- The spans of one part and of the next follow each other. -/
theorem trans (h : Disciplined tl tl' spans) (h' : Disciplined tl' tl'' spans') :
    Disciplined tl tl'' (spans ++ spans') where
  grows := by
    rw [List.map_append]
    exact h.grows.trans h'.grows
  closed := fun s hs => (List.mem_append.mp hs).elim (h.closed s) (h'.closed s)
  kept := fun s hs => (List.mem_append.mp hs).elim
    (fun hs => (h.kept s hs).trans h'.grows.history_prefix) (h'.kept s)

/-- **A SCOPE CLOSES ITS GROUP**: a scope is disciplined when its body is. -/
theorem of_opened {g : Group} (hnone : tl.current = none) (hg : tl'.current = some g)
    (hsame : tl'.history = tl.history) (h : Disciplined tl' tl'' spans) :
    Disciplined tl tl''.finished (⟨g, tl'.history, tl''.finished⟩ :: spans) := by
  obtain ⟨finished, hhistory, hgroups⟩ := h.grows.recorded
  rw [hg] at hgroups
  have hrecorded : tl''.finished.history = tl'.history ++ (finished ++ tl''.current.toList) := by
    rw [Timeline.finished, hhistory, List.append_assoc]
  refine ⟨⟨?_, fun _ => rfl, fun hidle => ?_⟩, fun s hs => ?_, fun s hs => ?_⟩
  · refine ⟨_, hsame ▸ hrecorded, ?_⟩
    rw [hnone, Timeline.finished, Option.toList_none, List.append_nil]
    exact hgroups
  · rw [Timeline.hasGroup, hnone] at hidle
    cases hidle
  · rcases List.mem_cons.mp hs with rfl | hs
    · -- the group is the first of all that its scope and those inside have opened
      obtain ⟨g', later, hg', -, hlater⟩ := List.forall₂_cons_left_iff.mp hgroups
      exact ⟨rfl, g', later, hg', hlater ▸ hrecorded⟩
    · exact h.closed s hs
  · rcases List.mem_cons.mp hs with rfl | hs
    · exact List.prefix_refl _
    · exact (h.kept s hs).trans (List.prefix_append ..)

end Disciplined

namespace Run

variable {ω α β : Type} {x : Session ω} {spans : List Span}

/-- A sequence has the spans of its first step, and behind them those of its second one. -/
theorem disciplined_bind {first : Run ω α} {next : α → Run ω β}
    {within : α → Session ω → List Span}
    (hfirst : Ends first x fun y => Disciplined x.timeline y.timeline spans)
    (hnext : ∀ a y, Ends (next a) y fun z => Disciplined y.timeline z.timeline (within a y)) :
    Ends (first >>= next) x fun z =>
      Disciplined x.timeline z.timeline (spans ++ Span.behind first within x) := by
  rw [Ends] at hfirst
  rw [Ends, run_bind, Span.behind]
  rcases hrun : first.run x with ⟨e | a, y⟩
  · rw [hrun] at hfirst
    dsimp only
    rw [List.append_nil]
    exact hfirst
  · rw [hrun] at hfirst
    exact hfirst.trans (hnext a y)

/-- What stays in the group behind a step adds no span. -/
theorem disciplined_bind_stays {first : Run ω α} {next : α → Run ω β}
    (hfirst : Ends first x fun y => Disciplined x.timeline y.timeline spans)
    (hnext : ∀ a, Stays (next a)) :
    Ends (first >>= next) x fun z => Disciplined x.timeline z.timeline spans := by
  refine ends_bind hfirst (fun _ h => h) fun a y hy => ends_mono (hnext a y) fun z hz => ?_
  rw [← List.append_nil spans]
  exact hy.trans (.of_grows hz)

/-- A scope is a span around those of its body, and it is closed however the body ends. -/
theorem disciplined_around {items : List GroupItem} {active : Option Nat} {body : Run ω α}
    {within : Session ω → List Span} {tl : Timeline}
    (hbody : ∀ y, Ends body y fun z => Disciplined y.timeline z.timeline (within y))
    (hopen : x.timeline.openGroup items active = .ok tl) :
    Disciplined x.timeline (body.run (x.withTimeline tl)).2.timeline.finished
      (Span.around items active body within x) := by
  obtain ⟨hnone, g, hg, hsame⟩ := Timeline.opened_of_openGroup hopen
  rw [Span.around, hopen]
  dsimp only
  rw [hg]
  exact .of_opened hnone hg hsame (hbody (x.withTimeline tl))

/-- A scope that cannot be entered leaves no span. -/
theorem disciplined_withScope {items : List GroupItem} {active : Option Nat} {body : Run ω α}
    {within : Session ω → List Span}
    (hbody : ∀ y, Ends body y fun z => Disciplined y.timeline z.timeline (within y)) :
    Ends (withScope items active body) x fun z =>
      Disciplined x.timeline z.timeline (Span.around items active body within x) := by
  rw [Ends, run_withScope]
  cases hopen : x.timeline.openGroup items active with
  | error e =>
      rw [Span.around, hopen]
      exact .of_grows (.refl _)
  | ok tl => exact disciplined_around hbody hopen

/-- A method has the spans of its body. -/
theorem disciplined_runActive {m : Method} {body : MethodBody ω}
    {within : List Value → Session ω → List Span}
    (hbody : ∀ args y, Ends (body args) y fun z =>
      Disciplined y.timeline z.timeline (within args y)) (x : Session ω) :
    Ends (runActive m body) x fun z =>
      Disciplined x.timeline z.timeline
        (Span.behind (acceptCall m) (fun accepted => within accepted.2) x) := by
  have haccept : Ends (acceptCall m) x fun y => Disciplined x.timeline y.timeline [] :=
    .of_grows (stays_read (acceptCall_unchanged m) x)
  exact disciplined_bind haccept fun accepted y =>
    disciplined_bind_stays (hbody accepted.2 y) fun returned => stays_conclude m accepted.1 returned

/-- A call starts before its group is opened. -/
theorem timeline_startCall (call : MethodCall) (x : Session ω) :
    ((startCall call).run x).2.timeline = x.timeline := by
  rw [run_startCall]
  rcases ((deferCall call).run x).1 with e | d
  · rfl
  · dsimp only
    split
    · cases x.ledger.setCreating call.app true <;> rfl
    · rfl

/-- A call ends behind its group. -/
theorem timeline_endCall (call : MethodCall) (result : Result (Option EncodedValue))
    (x : Session ω) : ((endCall call result).run x).2.timeline = x.timeline := by
  rw [run_endCall]
  split
  · cases x.ledger.setCreating call.app false <;> rfl
  · rfl

/-- A call of a method is a scope around the method, unless a group is open. -/
theorem disciplined_callMethod {call : MethodCall} {body : MethodBody ω}
    {within : List Value → Session ω → List Span}
    (hbody : ∀ args y, Ends (body args) y fun z =>
      Disciplined y.timeline z.timeline (within args y)) (x : Session ω) :
    Ends (callMethod call body) x fun z =>
      Disciplined x.timeline z.timeline
        (Span.ensuring (within call.args)
          (Span.behind (startCall call) fun d =>
            Span.around [.deferred d] none (runActive call.method body)
              (Span.behind (acceptCall call.method) fun accepted => within accepted.2)) x) := by
  rw [Ends, run_callMethod, Span.ensuring]
  split
  · exact disciplined_bind_stays (hbody call.args x) fun _ => stays_read fun _ => rfl
  · have hstart : ((startCall call).run x).2.timeline = x.timeline := timeline_startCall call x
    rw [Span.behind]
    rcases hrun : (startCall call).run x with ⟨e | d, y⟩
    · rw [hrun] at hstart
      refine .of_grows (.of_same ?_ ?_)
      · exact congrArg Timeline.current hstart
      · exact congrArg Timeline.history hstart
    · rw [hrun] at hstart
      rw [← hstart]
      dsimp only
      cases hopen : y.timeline.openGroup [.deferred d] none with
      | error e =>
          rw [Span.around, hopen]
          exact .of_grows (.refl _)
      | ok tl =>
          dsimp only
          rw [timeline_endCall]
          exact disciplined_around (disciplined_runActive hbody) hopen

end Run

namespace Script

variable {ω α : Type}

/-- **EVERY PROGRAM IS DISCIPLINED**, by induction on its tree. -/
theorem disciplined_run (p : Script ω α) (x : Session ω) :
    Ends p.run x fun y => Disciplined x.timeline y.timeline (p.spans x) := by
  induction p generalizing x with
  | step operation => exact .of_grows (operation.stays_run x)
  | aside action h => exact .of_grows (.of_same (h x).1 (h x).2)
  | bind first next ihfirst ihnext => exact Run.disciplined_bind (ihfirst x) ihnext
  | attempt body ih =>
      rw [Ends, run, Run.run_attempt]
      exact ih x
  | scope items active body ih => exact Run.disciplined_withScope ih
  | ensure items active body ih =>
      rw [Ends, run, Run.run_withEnsuredScope, spans, Span.ensuring]
      split
      · exact ih false x
      · have hidle : x.timeline.hasGroup = false := Bool.eq_false_iff.mpr ‹_›
        have hscope : Ends (Run.withScope items active (body true).run) x.finished fun z =>
            Disciplined x.finished.timeline z.timeline
              (Span.around items active (body true).run (body true).spans x.finished) :=
          Run.disciplined_withScope (ih true)
        exact (Disciplined.of_grows (.finished hidle)).trans hscope
  | call call body ih => exact Run.disciplined_callMethod ih x
  | method m body ih => exact Run.disciplined_runActive ih x

/-- A scope is refused while a group is open. -/
theorem run_scope_of_open {items : List GroupItem} {active : Option Nat} {body : Script ω α}
    {x : Session ω} (h : x.timeline.current.isSome = true) :
    (scope items active body).run.run x = (.error .groupAlreadyOpen, x) := by
  rw [run, Run.run_withScope, Timeline.openGroup, if_pos h]
  rfl

/-- What runs while a group with transactions is open leaves that group open. -/
theorem run_of_hasGroup (p : Script ω α) {x : Session ω} (h : x.timeline.hasGroup = true) :
    Ends p.run x fun y => y.timeline.history = x.timeline.history ∧
      ∃ g g', x.timeline.current = some g ∧ y.timeline.current = some g' ∧ g.Continues g' := by
  obtain ⟨hgrows, -, -⟩ := disciplined_run p x
  obtain ⟨hopen, hhistory⟩ := hgrows.kept h
  obtain ⟨finished, hrecorded, hgroups⟩ := hgrows.recorded
  obtain ⟨g, hg⟩ := Timeline.current_of_hasGroup h
  obtain ⟨g', hg'⟩ := Timeline.current_of_hasGroup hopen
  obtain rfl : finished = [] := List.self_eq_append_right.mp (hhistory.symm.trans hrecorded)
  rw [hg, hg'] at hgroups
  obtain ⟨_, _, hcontinues, -, heq⟩ := List.forall₂_cons_left_iff.mp hgroups
  cases heq
  exact ⟨hhistory, g, g', hg, hg', hcontinues⟩

/-- **SCOPE DISCIPLINE.**  A program that starts with no group open ends with none open, whether or
    not it fails.  The groups that its scopes have opened, and no others, have then joined the
    history, each once; each is there as soon as its scope has ended, and stays.  No program
    changes, moves or removes what is in the history.  While a group is open a scope is refused
    and changes nothing, and an ensured scope over a group with transactions leaves that group
    open and the history as it is. -/
theorem scope_discipline (p : Script ω α) (x : Session ω) (hx : x.timeline.current = none) :
    ((p.run.run x).2.timeline.current = none ∧
      ∃ recorded, (p.run.run x).2.timeline.history = x.timeline.history ++ recorded ∧
        List.Forall₂ (fun s g => s.group.Continues g) (p.spans x) recorded) ∧
    (∀ s ∈ p.spans x, s.Closed ∧ s.after.history <+: (p.run.run x).2.timeline.history) ∧
    (∀ (β : Type) (q : Script ω β) (y : Session ω),
      y.timeline.history <+: (q.run.run y).2.timeline.history) ∧
    (∀ (β : Type) items active (body : Script ω β) (y : Session ω),
      y.timeline.current.isSome = true →
        (scope items active body).run.run y = (.error .groupAlreadyOpen, y)) ∧
    ∀ (β : Type) items active (body : Bool → Script ω β) (y z : Session ω) result,
      y.timeline.hasGroup = true → (ensure items active body).run.run y = (result, z) →
        z.timeline.history = y.timeline.history ∧
          ∃ g g', y.timeline.current = some g ∧ z.timeline.current = some g' ∧ g.Continues g' := by
  obtain ⟨hgrows, hclosed, hkept⟩ := disciplined_run p x
  refine ⟨⟨hgrows.closed hx, ?_⟩, fun s hs => ⟨hclosed s hs, hkept s hs⟩, ?_, ?_, ?_⟩
  · obtain ⟨recorded, hhistory, hgroups⟩ := hgrows.recorded
    rw [hx, hgrows.closed hx, Option.toList_none, List.nil_append, List.append_nil,
      List.forall₂_map_left_iff] at hgroups
    exact ⟨recorded, hhistory, hgroups⟩
  · exact fun β q y => (disciplined_run q y).grows.history_prefix
  · exact fun β items active body y hopen => run_scope_of_open hopen
  · intro β items active body y z result hopen hrun
    have hends := run_of_hasGroup (ensure items active body) hopen
    rw [Ends, hrun] at hends
    exact hends

/-- A scope that finds no transactions in its own group, with an ensured scope inside that fails. -/
def nestedScopes : Script Unit (Result Unit) :=
  scope [] none (attempt (ensure [.single ⟨{}, .payment {}⟩] none fun _ =>
    aside (throw .emptyGroup) fun _ => ⟨rfl, rfl⟩))

theorem scope_discipline_nestedScopes :
    (nestedScopes.run.run ⟨.new {}, ()⟩).2.timeline.current = none ∧
      ∃ g g', (nestedScopes.run.run ⟨.new {}, ()⟩).2.timeline.history = [g, g'] := by
  obtain ⟨⟨hnone, recorded, hhistory, hgroups⟩, -⟩ :=
    scope_discipline nestedScopes ⟨.new {}, ()⟩ rfl
  refine ⟨hnone, ?_⟩
  have hlength : recorded.length = 2 := hgroups.length_eq.symm.trans rfl
  obtain ⟨g, g', rfl⟩ := List.length_eq_two.mp hlength
  exact ⟨g, g', hhistory⟩

end Script

end AvmSandbox
