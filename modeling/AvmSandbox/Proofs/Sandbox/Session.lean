import AvmSandbox.Proofs.Group
import AvmSandbox.Sandbox.Scope

/-! # Sessions — what the steps of a sandbox do to it

    Every step of a session looks at its ledger and its timeline and puts new
    ones in place.  Here each step is given by what it does to these two, and
    every scope by where its body ends.

    * `run_onLedger`, `run_onTimeline`, `run_onActiveTransaction`, `run_onChain`:
      the steps;
    * `Timeline.finished`: what the end of a scope does to the groups;
    * `run_withScope`, `run_withEnsuredScope`: the scopes;
    * `run_runActive`, `run_callMethod`: method calls. -/

namespace AvmSandbox

open AvmSandbox.Action

/-- The timeline with the open group, if there is one, as the newest of the history. -/
def Timeline.finished (tl : Timeline) : Timeline :=
  { tl with current := none, history := tl.history ++ tl.current.toList }

/-- Behind its end a group is the last one. -/
theorem Timeline.lastGroup_finished {tl : Timeline} {g : Group} (hg : tl.current = some g) :
    tl.finished.lastGroup = .ok g := by
  rw [lastGroup, finished, hg]
  simp

namespace Session

variable {ω : Type} (x : Session ω)

def ledger : Ledger := x.sandbox.ledger

def timeline : Timeline := x.sandbox.timeline

/-- The session with another ledger. -/
def withLedger (l : Ledger) : Session ω := { x with sandbox := { x.sandbox with ledger := l } }

/-- The session with another timeline. -/
def withTimeline (tl : Timeline) : Session ω :=
  { x with sandbox := { x.sandbox with timeline := tl } }

/-- The session with its open group finished. -/
def finished : Session ω := x.withTimeline x.timeline.finished

@[simp] theorem ledger_withLedger (l : Ledger) : (x.withLedger l).ledger = l := rfl

@[simp] theorem timeline_withLedger (l : Ledger) : (x.withLedger l).timeline = x.timeline := rfl

@[simp] theorem ledger_withTimeline (tl : Timeline) : (x.withTimeline tl).ledger = x.ledger := rfl

@[simp] theorem timeline_withTimeline (tl : Timeline) : (x.withTimeline tl).timeline = tl := rfl

@[simp] theorem ledger_finished : x.finished.ledger = x.ledger := rfl

@[simp] theorem timeline_finished : x.finished.timeline = x.timeline.finished := rfl

end Session

namespace Run

variable {ω α : Type}

/-! ## Steps -/

@[simp] theorem run_ledger (x : Session ω) :
    (ledger : Run ω Ledger).run x = (.ok x.ledger, x) := rfl

@[simp] theorem run_timeline (x : Session ω) :
    (timeline : Run ω Timeline).run x = (.ok x.timeline, x) := rfl

@[simp] theorem run_group (x : Session ω) : (group : Run ω Group).run x = (x.timeline.group, x) :=
  rfl

/-- How an action ended is the result, and what it changed stays. -/
theorem run_attempt (action : Run ω α) (x : Session ω) :
    (attempt action).run x = (.ok (action.run x).1, (action.run x).2) := rfl

/-- A ledger that cannot be changed stays as it was. -/
theorem run_onLedger (f : Ledger → Result Ledger) (x : Session ω) :
    (onLedger f).run x =
      match f x.ledger with
      | .ok l => (.ok (), x.withLedger l)
      | .error e => (.error e, x) := by
  rw [onLedger, run_bind, run_ledger]
  dsimp only
  rw [run_lift_bind]
  cases f x.ledger <;> rfl

/-- A timeline that cannot be changed stays as it was. -/
theorem run_onTimeline (f : Timeline → Result Timeline) (x : Session ω) :
    (onTimeline f).run x =
      match f x.timeline with
      | .ok tl => (.ok (), x.withTimeline tl)
      | .error e => (.error e, x) := by
  rw [onTimeline, run_bind, run_timeline]
  dsimp only
  rw [run_lift_bind]
  cases f x.timeline <;> rfl

/-- A change of the ledger succeeds, or leaves the session as it was. -/
theorem ends_onLedger {f : Ledger → Result Ledger} {x : Session ω} {P : Session ω → Prop}
    (h : P x) (hset : ∀ l, f x.ledger = .ok l → P (x.withLedger l)) : Ends (onLedger f) x P := by
  rw [Ends, run_onLedger]
  cases hl : f x.ledger with
  | error e => exact h
  | ok l => exact hset l hl

/-- A change of the ledger succeeds with the changed ledger in place. -/
theorem yields_onLedger_iff {f : Ledger → Result Ledger} {x y : Session ω} {u : Unit} :
    Yields (onLedger f) x u y ↔ ∃ l, f x.ledger = .ok l ∧ x.withLedger l = y := by
  rw [Yields, run_onLedger]
  cases f x.ledger with
  | error e =>
      dsimp only
      rw [Prod.mk.injEq]
      simp
  | ok l =>
      dsimp only
      rw [Prod.mk.injEq]
      simp

/-- A change of the timeline succeeds, or leaves the session as it was. -/
theorem ends_onTimeline {f : Timeline → Result Timeline} {x : Session ω} {P : Session ω → Prop}
    (h : P x) (hset : ∀ tl, f x.timeline = .ok tl → P (x.withTimeline tl)) :
    Ends (onTimeline f) x P := by
  rw [Ends, run_onTimeline]
  cases htl : f x.timeline with
  | error e => exact h
  | ok tl => exact hset tl htl

/-- An action on the active transaction changes it in the open group, also when it fails. -/
theorem run_onActiveTransaction (action : Amending α) (x : Session ω) :
    (onActiveTransaction action).run x =
      match x.timeline.current with
      | none => (.error .noOpenGroup, x)
      | some g =>
          match g.activeForChange with
          | .error e => (.error e, x)
          | .ok t =>
              ((action.run t).1,
                x.withTimeline { x.timeline with
                  current := some (g.setActiveTransaction (action.run t).2) }) := by
  rw [onActiveTransaction, run_bind, run_group, Timeline.group]
  cases hcurrent : x.timeline.current with
  | none => rfl
  | some g =>
      dsimp only
      rw [run_lift_bind]
      cases g.activeForChange with
      | error e => rfl
      | ok t =>
          show (onGroup (fun g => .ok (g.setActiveTransaction (action.run t).2)) >>=
            fun _ => liftM (action.run t).1 : Run ω α).run x = _
          rw [run_bind, onGroup, run_onTimeline, Timeline.modifyGroup, Timeline.group, hcurrent]
          rfl

/-- An action on the active transaction ends where there is none, or with what it made of it in
    place, also when it fails. -/
theorem ends_onActiveTransaction {action : Amending α} {x : Session ω} {P : Session ω → Prop}
    (h : P x)
    (hset : ∀ g t, x.timeline.current = some g → g.activeForChange = .ok t →
      P (x.withTimeline { x.timeline with
        current := some (g.setActiveTransaction (action.run t).2) })) :
    Ends (onActiveTransaction action) x P := by
  rw [Ends, run_onActiveTransaction]
  cases hcurrent : x.timeline.current with
  | none => exact h
  | some g =>
      dsimp only
      cases hactive : g.activeForChange with
      | error e => exact h
      | ok t => exact hset g t hcurrent hactive

/-- An action on the active transaction succeeds when there is one on which it does. -/
theorem yields_onActiveTransaction_iff {action : Amending α} {x y : Session ω} {a : α} :
    Yields (onActiveTransaction action) x a y ↔
      ∃ g t t', x.timeline.current = some g ∧ g.activeForChange = .ok t ∧ Yields action t a t' ∧
        x.withTimeline { x.timeline with current := some (g.setActiveTransaction t') } = y := by
  rw [Yields, run_onActiveTransaction]
  cases hcurrent : x.timeline.current with
  | none =>
      dsimp only
      rw [Prod.mk.injEq]
      simp
  | some g =>
      dsimp only
      cases hactive : g.activeForChange with
      | error e =>
          dsimp only
          rw [Prod.mk.injEq]
          simp [hactive]
      | ok t =>
          constructor
          · intro h
            obtain ⟨ha, hy⟩ := Prod.mk.inj h
            exact ⟨g, t, _, rfl, hactive, yields_of_ok ha, hy⟩
          · rintro ⟨_, _, t', hg, ht, haction, rfl⟩
            obtain rfl := Option.some.inj hg
            obtain rfl := Except.ok.inj (hactive.symm.trans ht)
            rw [Yields] at haction
            dsimp only
            rw [haction]

/-- What is done on the chain is done to the ledger and the timeline of the session. -/
theorem run_onChain (action : ChainAction α) (x : Session ω) :
    (onChain action).run x =
      ((action.run ⟨x.ledger, x.timeline⟩).1,
        (x.withLedger (action.run ⟨x.ledger, x.timeline⟩).2.ledger).withTimeline
          (action.run ⟨x.ledger, x.timeline⟩).2.timeline) := rfl

/-! ## Scopes -/

/-- The end of a group cannot fail. -/
theorem run_finishGroup (x : Session ω) :
    (finishGroup : Run ω Unit).run x = (.ok (), x.finished) := by
  rw [finishGroup, run_bind, run_timeline]
  dsimp only
  rw [Timeline.finish, Session.finished, Timeline.finished]
  cases hcurrent : x.timeline.current with
  | none =>
      -- nothing is open, and the timeline is put back as it was
      have hsame : ({ x.timeline with current := none, history := x.timeline.history ++ [] } :
          Timeline) = x.timeline := by
        rw [List.append_nil, ← hcurrent]
      rw [Option.toList_none, hsame]
      rfl
  | some g => rfl

/-- A group ends behind its body, whether or not the body failed. -/
theorem run_finishingGroup (body : Run ω α) (x : Session ω) :
    (finishingGroup body).run x = ((body.run x).1, (body.run x).2.finished) := by
  rw [finishingGroup, run_bind, run_attempt]
  dsimp only
  rw [run_bind, run_finishGroup]
  rfl

/-- A scope runs its body in the group that it opens and finishes that group. -/
theorem run_withScope (items : List GroupItem) (active : Option Nat) (body : Run ω α)
    (x : Session ω) :
    (withScope items active body).run x =
      match x.timeline.openGroup items active with
      | .ok tl =>
          ((body.run (x.withTimeline tl)).1, (body.run (x.withTimeline tl)).2.finished)
      | .error e => (.error e, x) := by
  rw [withScope, run_bind, run_onTimeline]
  cases x.timeline.openGroup items active with
  | error e => rfl
  | ok tl => exact run_finishingGroup body (x.withTimeline tl)

/-- An ensured scope finishes an open group without transactions before it opens its own. -/
theorem run_withEnsuredScope (items : List GroupItem) (active : Option Nat)
    (body : Bool → Run ω α) (x : Session ω) :
    (withEnsuredScope items active body).run x =
      if x.timeline.hasGroup then (body false).run x
      else (withScope items active (body true)).run x.finished := by
  rw [withEnsuredScope, run_bind, run_timeline]
  dsimp only
  split
  · rfl
  · rw [run_bind, run_finishGroup]

/-! ## Method calls -/

/-- Accepting a call changes nothing. -/
theorem acceptCall_unchanged (m : Method) (x : Session ω) : ((acceptCall m).run x).2 = x := by
  refine ends_bind_of_unchanged (P := (· = x)) rfl rfl fun g _ => ends_lift_bind rfl fun app _ => ?_
  refine ends_bind_of_unchanged rfl rfl fun l _ => ends_lift_bind rfl fun _ _ => ?_
  exact ends_lift_bind rfl fun t _ => ends_lift_bind rfl fun args _ => rfl

/-- A body runs with the arguments of the accepted call. -/
theorem run_runActive (m : Method) (body : MethodBody ω) (x : Session ω) :
    (runActive m body).run x =
      match ((acceptCall m).run x).1 with
      | .ok (app, args) => (body args >>= conclude m app).run x
      | .error e => (.error e, x) := by
  rw [runActive, run_bind_of_unchanged _ (acceptCall_unchanged m x)]
  rcases ((acceptCall m).run x).1 with e | ⟨app, args⟩ <;> rfl

/-- Forming the transactions of a call changes nothing. -/
theorem deferCall_unchanged (call : MethodCall) (x : Session ω) :
    ((deferCall call).run x).2 = x := by
  refine ends_bind_of_unchanged (P := (· = x)) rfl rfl fun s _ => ?_
  exact ends_lift_bind rfl fun _ _ => rfl

/-- A call starts by deferring it and marking the application, in that order. -/
theorem run_startCall (call : MethodCall) (x : Session ω) :
    (startCall call).run x =
      match ((deferCall call).run x).1 with
      | .error e => (.error e, x)
      | .ok d =>
          if call.create then
            match x.ledger.setCreating call.app true with
            | .ok l => (.ok d, x.withLedger l)
            | .error e => (.error e, x)
          else (.ok d, x) := by
  rw [startCall, run_bind_of_unchanged _ (deferCall_unchanged call x)]
  rcases ((deferCall call).run x).1 with e | d
  · rfl
  · dsimp only
    split
    · rw [run_bind, run_onLedger]
      cases x.ledger.setCreating call.app true <;> rfl
    · rfl

/-- The mark of a creating call is taken away when the call has failed. -/
theorem run_endCall (call : MethodCall) (result : Result (Option EncodedValue)) (x : Session ω) :
    (endCall call result).run x =
      if call.create && !result.isOk then
        match x.ledger.setCreating call.app false with
        | .ok l => (result, x.withLedger l)
        | .error e => (.error e, x)
      else (result, x) := by
  rw [endCall]
  split
  · rw [run_bind, run_onLedger]
    cases x.ledger.setCreating call.app false <;> rfl
  · rfl

/-- A call runs its body in the open group when that has transactions, else as the active call
    of a group that it opens and finishes. -/
theorem run_callMethod (call : MethodCall) (body : MethodBody ω) (x : Session ω) :
    (callMethod call body).run x =
      if x.timeline.hasGroup then
        (body call.args >>= fun returned => liftM (encodeReturn call.method returned).plain).run x
      else
        match (startCall call).run x with
        | (.error e, y) => (.error e, y)
        | (.ok d, y) =>
            match y.timeline.openGroup [.deferred d] none with
            | .error e => (.error e, y)
            | .ok tl =>
                let z := (runActive call.method body).run (y.withTimeline tl)
                (endCall call z.1).run z.2.finished := by
  rw [callMethod, run_bind, run_timeline]
  dsimp only
  split
  · rfl
  · rw [run_bind]
    rcases (startCall call).run x with ⟨e | d, y⟩
    · rfl
    · dsimp only
      rw [run_bind, run_onTimeline]
      cases y.timeline.openGroup [.deferred d] none with
      | error e => rfl
      | ok tl =>
          dsimp only
          rw [run_bind, run_attempt, run_finishingGroup]

end Run

end AvmSandbox
