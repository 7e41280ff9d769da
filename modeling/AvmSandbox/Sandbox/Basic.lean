import AvmSandbox.Ledger.Log
import AvmSandbox.Method.Call
import AvmSandbox.Settings.Basic
import AvmSandbox.Submission

/-! # The sandbox — one session of testing a contract

    A sandbox owns a ledger and a timeline.  Everything a test or a contract
    under test does is an action on it: actions may fail, and what they changed
    before failing stays changed.  Beside the sandbox, an action may keep a
    record of its own, of any type `ω`.

    * `Sandbox`, `Session` and `Run`;
    * lifting of ledger, timeline, group and chain operations into `Run`;
    * the actions of contracts: logs, scratch space, inner transactions. -/

namespace AvmSandbox

/-- The state of a session. -/
structure Sandbox where
  settings : Settings
  ledger : Ledger
  timeline : Timeline
  /-- Who calls when nobody is named. -/
  defaultSender : Address

namespace Sandbox

/-- The default sender of a new sandbox: 31 zero bytes and a one. -/
def firstSender : Address := ⟨⟨List.replicate 31 0 ++ [1], rfl⟩⟩

def new (settings : Settings) : Sandbox where
  settings
  ledger := .new settings.ledger
  timeline := .new settings.encoding
  defaultSender := firstSender

/-- Drops all records, groups and observers. -/
def reset (s : Sandbox) : Sandbox :=
  { s with ledger := .new s.settings.ledger, timeline := s.timeline.reset }

/-- An application call from the default sender. -/
def appCall (s : Sandbox) (app : UInt64) (onCompletion : OnCompletion) : Transaction :=
  .ofCall s.defaultSender { app, onCompletion, encoding := s.timeline.encoding }

end Sandbox

/-- A sandbox and a record kept beside it. -/
structure Session (ω : Type) where
  sandbox : Sandbox
  record : ω

/-- An action on a sandbox. -/
abbrev Run (ω : Type) := ExceptT Fault (StateM (Session ω))

namespace Run

variable {ω α : Type}

def sandbox : Run ω Sandbox := return (← get).sandbox

/-- Puts a sandbox in place. -/
def setSandbox (s : Sandbox) : Run ω Unit := modify fun x => { x with sandbox := s }

def ledger : Run ω Ledger := return (← sandbox).ledger

def timeline : Run ω Timeline := return (← sandbox).timeline

/-- Takes over a ledger. -/
def setLedger (l : Ledger) : Run ω Unit := do setSandbox { (← sandbox) with ledger := l }

/-- Takes over a timeline. -/
def setTimeline (tl : Timeline) : Run ω Unit := do setSandbox { (← sandbox) with timeline := tl }

/-- Changes the ledger. -/
def onLedger (f : Ledger → Result Ledger) : Run ω Unit := do setLedger (← f (← ledger))

/-- Changes the ledger and returns what the change found. -/
def fromLedger (f : Ledger → Result (α × Ledger)) : Run ω α := do
  let (a, l) ← f (← ledger)
  setLedger l
  return a

/-- Changes the timeline. -/
def onTimeline (f : Timeline → Result Timeline) : Run ω Unit := do
  setTimeline (← f (← timeline))

/-- The open group. -/
def group : Run ω Group := do (← timeline).group

/-- Changes the open group. -/
def onGroup (f : Group → Result Group) : Run ω Unit := onTimeline fun tl => tl.modifyGroup f

/-- Runs an action on the ledger and the timeline. -/
def onChain (action : ChainAction α) : Run ω α := do
  let s ← sandbox
  let (result, c) := action.run ⟨s.ledger, s.timeline⟩
  setSandbox { s with ledger := c.ledger, timeline := c.timeline }
  result

/-- Runs an action on the active transaction of the open group. -/
def onActiveTransaction (action : Amending α) : Run ω α := do
  let g ← group
  let t ← g.activeForChange
  let (result, t) := action.run t
  onGroup fun g => .ok (g.setActiveTransaction t)
  result

/-- Runs an action and returns how it ended, without failing. -/
def attempt (action : Run ω α) : Run ω (Result α) := ExceptT.lift action.run

/-! ## Actions of a test -/

/-- Creates an application.  The ledger keeps what a creation has done that stops on its way. -/
def createApplicationOf (creator : Address) (program : Program) : Run ω UInt64 := do
  let l ← ledger
  setLedger (l.afterCreation creator program)
  return (← l.createApplication creator program).1

/-- Creates an application of the default sender. -/
def createApplication (program : Program) : Run ω UInt64 := do
  createApplicationOf (← sandbox).defaultSender program

/-- Creates an asset of the default sender. -/
def createAsset (params : AssetParams) : Run ω UInt64 := do
  let creator := (← sandbox).defaultSender
  fromLedger fun l => l.createAsset creator params

/-- Lets calls of a method with some actions be observed. -/
def observe (m : Method) (actions : List OnCompletion)
    (react : Transaction → Result Transaction) : Run ω Unit :=
  onTimeline fun tl =>
    .ok { tl with observers := tl.observers ++ [⟨m.selector, actions, react⟩] }

/-- The log entries of an application. -/
def exportLogs (app : UInt64) (kinds : List LogKind) : Run ω (List LogValue) := do
  readLogs kinds (← (← ledger).application app).logs

/-! ## Actions of a contract -/

/-- Logs an entry for the active call and its application. -/
def log (entry : Bytes) : Run ω Unit := do
  let app ← (← group).activeApp
  onGroup fun g => g.appendLog entry
  onLedger fun l => l.appendLog app entry

/-- Writes a scratch slot of the active transaction. -/
def storeScratch (slot : Nat) (v : StackValue) : Run ω Unit :=
  onGroup fun g => g.storeScratch slot v

def loadScratch (index slot : Nat) : Run ω StackValue := do (← group).loadScratch index slot

/-- Opens a composition of inner transactions. -/
def beginInner : Run ω Unit := onGroup Group.beginInner

/-- Goes on to the next inner transaction. -/
def nextInner : Run ω Unit := onGroup Group.nextInner

/-- Assigns a field of the inner transaction under composition. -/
def assignInner (field : InnerField) : Run ω Unit := onGroup fun g => g.assignInner field

/-- Submits the inner transactions under composition. -/
def submitInner : Run ω (List Transaction) := onChain Chain.submitInner

/-- Composes and submits a single inner transaction. -/
def submitSingle (p : InnerParams) : Run ω Transaction := onChain (Chain.submitSingle p)

end Run

end AvmSandbox
