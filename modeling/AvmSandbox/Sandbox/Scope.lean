import AvmSandbox.Sandbox.Basic

/-! # Scopes and method calls — running bodies within groups

    A scope opens a group for a body and finishes it afterwards, however the
    body ends.  An ensured scope uses the open group when there is one.  A
    method call forms its own group, admits the call, decodes the arguments for
    the body, and records what the body returns; inside an open group the body
    runs directly, so that methods can call each other.

    * `Run.withScope`, `Run.withEnsuredScope`;
    * `MethodCall`, `Run.callMethod` and `Run.runActive`. -/

namespace AvmSandbox

structure MethodCall where
  app : UInt64
  method : Method
  args : List Value := []
  onCompletion : OnCompletion := .noOp
  /-- The caller, which is the default sender when absent. -/
  sender : Option Address := none
  /-- Whether the call creates its application. -/
  create : Bool := false
  /-- The transaction arguments, which stand before the call. -/
  transactions : List Transaction := []

/-- The body of a method: it gets the decoded arguments and may return a value. -/
abbrev MethodBody (ω : Type) := List Value → Run ω (Option Value)

namespace Run

variable {ω α : Type}

/-! ## Scopes -/

/-- Finishes the open group, if one is open. -/
def finishGroup : Run ω Unit := do
  match (← timeline).finish with
  | .ok tl => setTimeline tl
  | .error _ => return ()

/-- Runs a body and finishes the open group afterwards, however the body ends. -/
def finishingGroup (body : Run ω α) : Run ω α := do
  let result ← attempt body
  finishGroup
  result

/-- Opens a group for a body. -/
def withScope (items : List GroupItem) (active : Option Nat) (body : Run ω α) : Run ω α := do
  onTimeline fun tl => tl.openGroup items active
  finishingGroup body

/-- Runs a body in the open group when it has transactions, else in a new one.  The body
    learns whether the group is its own. -/
def withEnsuredScope (items : List GroupItem) (active : Option Nat) (body : Bool → Run ω α) :
    Run ω α := do
  if (← timeline).hasGroup then body false else
    finishGroup
    withScope items active (body true)

/-! ## Method calls -/

/-- The transactions of a call: its transaction arguments, then the call with its encoded
    arguments. -/
def deferCall (call : MethodCall) : Run ω DeferredCall := do
  let s ← sandbox
  let t := s.appCall call.app call.onCompletion
  let t := { t with header := { t.header with sender := call.sender.getD t.header.sender } }
  let (result, t) := (call.method.encodeArgs call.args).run t
  let _ ← (result : Result Unit)
  DeferredCall.ofTransactions (call.transactions ++ [t])

/-- Encodes what a method returned as its return type. -/
def encodeReturn (m : Method) (returned : Option Value) : Encoding (Option EncodedValue) := do
  match m.returns, returned with
  | none, none => return none
  | some type, some v => return some (← EncodedValue.encodeWithin Limits.byteString type v)
  | some type, none => throw (.typeMismatch type.name voidName)
  | none, some v => throw (v.mismatch voidName)

/-- Records a returned value as the last log entry of the active call and in the log of the
    application. -/
def recordReturn (app : UInt64) (e : EncodedValue) : Run ω Unit := do
  onActiveTransaction (Transaction.modifyCall fun c =>
    return { c with log := ← c.log.setReturn e })
  onLedger fun l => l.appendLog app e.log

/-- Accepts the active call as a call of a method: the called application and the decoded
    arguments. -/
def acceptCall (m : Method) : Run ω (UInt64 × List Value) := do
  let g ← group
  let app ← g.activeApp
  m.checkRouting (← ledger) g app
  let args ← m.decodeArgs (← g.activeTransaction)
  return (app, args)

/-- Records what the body of a method returned and ends the creation of the application. -/
def conclude (m : Method) (app : UInt64) (returned : Option Value) :
    Run ω (Option EncodedValue) := do
  let encoded ← onActiveTransaction (Transaction.embed (encodeReturn m returned))
  if let some e := encoded then recordReturn app e
  onLedger fun l => l.setCreating app false
  return encoded

/-- Runs a body as a method of the active call. -/
def runActive (m : Method) (body : MethodBody ω) : Run ω (Option EncodedValue) := do
  let (app, args) ← acceptCall m
  conclude m app (← body args)

/-- Forms the transactions of a call and marks the application that it creates. -/
def startCall (call : MethodCall) : Run ω DeferredCall := do
  let deferred ← deferCall call
  if call.create then onLedger fun l => l.setCreating call.app true
  return deferred

/-- Takes the mark of a creation that has failed away. -/
def endCall (call : MethodCall) (result : Result (Option EncodedValue)) :
    Run ω (Option EncodedValue) := do
  if call.create && !result.isOk then onLedger fun l => l.setCreating call.app false
  result

/-- Calls a method: in the open group when it has transactions, else in a group of its own. -/
def callMethod (call : MethodCall) (body : MethodBody ω) : Run ω (Option EncodedValue) := do
  if (← timeline).hasGroup then
    let returned ← body call.args
    (encodeReturn call.method returned).plain
  else
    let deferred ← startCall call
    onTimeline fun tl => tl.openGroup [.deferred deferred] none
    endCall call (← attempt (finishingGroup (runActive call.method body)))

end Run

end AvmSandbox
