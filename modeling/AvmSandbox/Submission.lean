import AvmSandbox.Ledger.Basic
import AvmSandbox.Timeline

/-! # Submission — inner groups take effect

    The inner transactions under composition are submitted together.  Each one
    is preceded by the inner transactions it carries from an earlier call, which
    have taken effect before.  Effects are staged on a copy of the ledger that
    replaces the real one only when the whole group has succeeded.

    * `applyEffects`: what one transaction does to a ledger;
    * `Staging.add`: one transaction joins the group being submitted;
    * `submitInner`, which stages and then commits, and `submitSingle`. -/

namespace AvmSandbox

/-- What an inner transaction does to a ledger: it creates assets and applications, changes
    assets, opts in and closes out.  The transaction takes over the ids that are created. -/
def applyEffects (t : Transaction) (l : Ledger) : Result (Transaction × Ledger) := do
  let sender := t.header.sender
  match t.body with
  | .assetConfig x =>
      if x.asset = 0 then
        let (id, l) ← l.createAsset sender x.params
        return ({ t with body := .assetConfig { x with createdAsset := id } }, l)
      return (t, ← l.configureAsset x.asset x.params)
  | .assetTransfer x =>
      if x.amount = 0 ∧ x.receiver = sender then return (t, ← l.optInAsset x.asset sender)
      return (t, l)
  | .call c =>
      if c.app = 0 then
        let (id, l) ← l.createApplication sender c.program
        return ({ t with body := .call { c with createdApp := id } }, l)
      match c.onCompletion with
      | .optIn => return (t, ← l.optIn c.app sender)
      | .closeOut | .clearState =>
          if ← l.isOptedIn c.app sender then return (t, ← l.closeOut c.app sender)
          return (t, l)
      | _ =>
          let _ ← l.application c.app
          return (t, l)
  | _ => return (t, l)

/-- A group being submitted. -/
structure Staging where
  /-- The ledger with the effects so far. -/
  ledger : Ledger
  /-- The transactions so far. -/
  done : List Transaction := []
  /-- How many identifiers were made. -/
  counter : Nat

namespace Staging

/-- Adds one transaction behind those it carries.  The identifier that is made for it counts
    even when a later step fails. -/
def add (issuer : Address) (observers : List Observer) (p : InnerParams) :
    ExceptT Fault (StateM Staging) Unit := do
  let s ← get
  let done := s.done ++ Group.number s.done.length p.nested
  let counter := s.counter + 1
  set { s with done, counter }
  let id := transactionId (p.sender.getD issuer) done.length counter
  let t := p.withoutNested.toTransaction issuer done.length id
  let (t, ledger) ← applyEffects t s.ledger
  let t ← Observer.notify observers t
  set { ledger, done := done ++ [t], counter : Staging }

/-- Adds transactions in order. -/
def addAll (issuer : Address) (observers : List Observer) :
    List InnerParams → ExceptT Fault (StateM Staging) Unit
  | [] => return ()
  | p :: ps => do
      add issuer observers p
      addAll issuer observers ps

end Staging

/-- A ledger and its timeline. -/
structure Chain where
  ledger : Ledger
  timeline : Timeline

/-- A computation on a chain.  What was changed stays when a later step fails. -/
abbrev ChainAction := ExceptT Fault (StateM Chain)

namespace Chain

/-- Takes the inner transactions under composition, which closes the composition. -/
def takeComposing (g : Group) : ChainAction (List InnerParams) := do
  match g.composing with
  | none => throw .submitWithoutBegin
  | some params =>
      modify fun c =>
        { c with timeline := { c.timeline with current := some { g with composing := none } } }
      if params.length > Limits.group then throw (.groupTooLarge params.length)
      return params

/-- Stages inner transactions on a copy of the ledger. -/
def stage (issuer : Address) (params : List InnerParams) : ChainAction Staging := do
  let c ← get
  let (result, s) := (Staging.addAll issuer c.timeline.observers params).run
    { ledger := c.ledger, counter := c.timeline.counter }
  modify fun c => { c with timeline := { c.timeline with counter := s.counter } }
  let _ ← (result : Result Unit)
  if s.done.length > Limits.group then throw (.groupTooLarge s.done.length)
  return s

/-- Stages the inner transactions under composition. -/
def stageInner : ChainAction Staging := do
  let c ← get
  let g ← c.timeline.group
  let app ← g.activeApp
  let issuer := (← c.ledger.application app).address
  stage issuer (← takeComposing g)

/-- Puts the staged ledger in place and shows the issuer what was submitted. -/
def commitInner (s : Staging) : ChainAction (List Transaction) := do
  modify fun c => { c with ledger := s.ledger }
  let g ← (← (← get).timeline.group).pushInnerGroup s.done
  modify fun c => { c with timeline := { c.timeline with current := some g } }
  g.lastInnerGroup

/-- Submits the inner transactions under composition. -/
def submitInner : ChainAction (List Transaction) := do commitInner (← stageInner)

/-- Composes and submits a single inner transaction, which is returned. -/
def submitSingle (p : InnerParams) : ChainAction Transaction := do
  let tl ← (← get).timeline.modifyGroup Group.beginInner
  let tl ← tl.modifyGroup fun g => g.replaceInner p
  modify fun c => { c with timeline := tl }
  match (← submitInner).getLast? with
  | some t => return t
  | none => throw .emptyInnerGroup

end Chain

end AvmSandbox
