import AvmSandbox.Method.Basic
import AvmSandbox.Text.Json
import AvmSandbox.Transaction.KindText

/-! # Descriptions — contracts from ARC-4 JSON

    A description lists the methods of a contract with their types and,
    optionally, the on-completion actions that are permitted while the
    application is created and when it is called.

    A description is first read as a tree of texts; only then are the texts
    read as types and actions, method after method. -/

namespace AvmSandbox

/-- The actions a description permits. -/
structure DescribedActions where
  create : List String := []
  call : List String := []
  deriving DecidableEq

structure DescribedMethod where
  name : String
  args : List String := []
  returns : String
  readonly : Bool := false
  actions : Option DescribedActions := none
  deriving DecidableEq

/-- A contract as described. -/
structure Description where
  name : String
  methods : List DescribedMethod := []
  deriving DecidableEq

namespace Description

/-! ## Reading the tree -/

def required {α : Type} (read : Json → Option α) (field : Option Json) : Option α :=
  field.bind read

/-- A field that has a default. -/
def optional {α : Type} (default : α) (read : Json → Option α) : Option Json → Option α
  | some j => read j
  | none => some default

def readTexts (j : Json) : Option (List String) := do (← j.items?).mapM Json.text?

/-- A record whose one field is the name of a type. -/
def readType (j : Json) : Option String :=
  match j.fields? ["type"] with
  | some [type] => required Json.text? type
  | _ => none

/-- The permitted actions. -/
def readActions (j : Json) : Option DescribedActions :=
  match j.fields? ["create", "call"] with
  | some [create, call] => do
      return { create := ← optional [] readTexts create, call := ← optional [] readTexts call }
  | _ => none

/-- The permitted actions, or nothing. -/
def readActions? : Json → Option (Option DescribedActions)
  | .null => some none
  | j => (readActions j).map some

def readMethod (j : Json) : Option DescribedMethod :=
  match j.fields? ["name", "args", "returns", "readonly", "actions"] with
  | some [name, args, returns, readonly, actions] => do
      return {
        name := ← required Json.text? name
        args := ← optional [] (fun j => do (← j.items?).mapM readType) args
        returns := ← required readType returns
        readonly := ← optional false Json.bool? readonly
        actions := ← optional none readActions? actions }
  | _ => none

def readContract (j : Json) : Option Description :=
  match j.fields? ["name", "methods"] with
  | some [name, methods] => do
      return {
        name := ← required Json.text? name
        methods := ← optional [] (fun j => do (← j.items?).mapM readMethod) methods }
  | _ => none

/-! ## Reading the texts -/

/-- The rule that follows from the actions of both phases. -/
def creationRule (create call : List OnCompletion) : CreationRule :=
  match create.isEmpty, call.isEmpty with
  | false, true => .require
  | false, false => .allow
  | true, _ => .disallow

/-- All permitted actions: those of calls, then the others of creation. -/
def allowedActions (create call : List OnCompletion) : List OnCompletion :=
  create.foldl (fun allowed action =>
    if allowed.contains action then allowed else allowed ++ [action]) call

/-- Adds the permitted actions to a method. -/
def withActions (m : Method) (actions : DescribedActions) : Result Method := do
  let create ← actions.create.mapM OnCompletion.parse
  let call ← actions.call.mapM OnCompletion.parse
  return { m with
    creation := creationRule create call
    allowed := allowedActions create call }

def methodOf (d : DescribedMethod) : Result Method := do
  let args ← d.args.mapM ArgType.parse
  let returns ← if d.returns = voidName then pure none else some <$> Descriptor.parse d.returns
  let m : Method := { name := d.name, args, returns, readonly := d.readonly }
  match d.actions with
  | some actions => withActions m actions
  | none => return m

/-- The contract that is described. -/
def toContract (d : Description) : Result Contract :=
  return { name := d.name, methods := ← d.methods.mapM methodOf }

/-- Reads a description. -/
def parse (text : String) : Result Contract :=
  match (Json.parse text).bind readContract with
  | some d => d.toContract
  | none => .error .invalidDescription

end Description

end AvmSandbox
