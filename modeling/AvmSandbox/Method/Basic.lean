import AvmSandbox.Method.Signature
import AvmSandbox.Table

/-! # Methods and contracts — what a contract offers

    A method has argument types, a return type, and the conditions under which
    it may be called.  Transaction arguments are not encoded: they stand in the
    group before the call.  A contract is a list of methods; contracts built on
    others take over their methods, and a later definition of a name replaces
    an earlier one in its place.

    * `Method` with its signature, selector and argument types;
    * `Contract.upsert`, `Contract.merge`: the rule of replacement;
    * `Registry`: contracts by key, and their composition. -/

namespace AvmSandbox

/-- Whether a method may run while its application is created. -/
inductive CreationRule where
  | allow
  | require
  | disallow
  deriving DecidableEq, Repr, Inhabited

namespace CreationRule

def name : CreationRule → String
  | allow => "allow"
  | require => "require"
  | disallow => "disallow"

def ofName? (s : String) : Option CreationRule :=
  [allow, require, disallow].find? fun rule => rule.name = s

end CreationRule

/-- The declared type of an argument. -/
inductive ArgType where
  /-- An encoded value among the application arguments. -/
  | value (type : Descriptor)
  /-- A transaction before the call, of any kind when none is given. -/
  | transaction (kind : Option TransactionKind)
  deriving DecidableEq

namespace ArgType

def name : ArgType → String
  | value type => type.name
  | transaction (some kind) => kind.name
  | transaction none => "txn"

/-- Reads the name of an argument type. -/
def parse (text : String) : Result ArgType :=
  if text = "txn" then .ok (.transaction none) else
    match TransactionKind.ofName? text with
    | some kind => .ok (.transaction (some kind))
    | none => return .value (← Descriptor.parse text)

def isTransaction : ArgType → Bool
  | transaction _ => true
  | value _ => false

/-- The type of an encoded argument. -/
def value? : ArgType → Option Descriptor
  | value type => some type
  | transaction _ => none

/-- The kind declared for a transaction argument. -/
def transaction? : ArgType → Option (Option TransactionKind)
  | transaction kind => some kind
  | value _ => none

end ArgType

/-- A method of a contract. -/
structure Method where
  name : String
  args : List ArgType
  /-- The return type; absent when nothing is returned. -/
  returns : Option Descriptor
  allowed : List OnCompletion := [.noOp]
  creation : CreationRule := .disallow
  readonly : Bool := false
  deriving DecidableEq

namespace Method

/-- Reads a signature: the argument types in order, then the return type. -/
def ofSignature (text : String) : Result Method := do
  let s ← Signature.parse text
  let args ← s.args.mapM ArgType.parse
  let returns ← if s.isVoid then pure none else some <$> Descriptor.parse s.returns
  return { name := s.name, args, returns }

def signature (m : Method) : Signature where
  name := m.name
  args := m.args.map ArgType.name
  returns := (m.returns.map Descriptor.name).getD voidName

def selector (m : Method) : Bytes := m.signature.selector

/-- The types of the encoded arguments, in order. -/
def valueTypes (m : Method) : List Descriptor := m.args.filterMap ArgType.value?

/-- The kinds of the transaction arguments, in order. -/
def transactionKinds (m : Method) : List (Option TransactionKind) :=
  m.args.filterMap ArgType.transaction?

end Method

/-! ## Selectors that are remembered -/

/-- A method whose selector is computed when it is first asked for and kept from then on. -/
structure MethodCard where
  method : Method
  known : Option Bytes := none

namespace MethodCard

/-- The selector that is kept, else that of the method. -/
def selector (card : MethodCard) : Bytes := card.known.getD card.method.selector

/-- Asks for the selector. -/
def ask (card : MethodCard) : Bytes × MethodCard :=
  (card.selector, { card with known := some card.selector })

/-- Gives the method another name.  A selector that is kept stays. -/
def rename (card : MethodCard) (name : String) : MethodCard :=
  { card with method := { card.method with name } }

end MethodCard

/-! ## Contracts -/

structure Contract where
  name : String
  methods : List Method := []
  deriving DecidableEq

/-- Puts a method in the place of the first of its name, else at the end. -/
def upsertMethod (m : Method) : List Method → List Method
  | [] => [m]
  | n :: rest => if n.name = m.name then m :: rest else n :: upsertMethod m rest

namespace Contract

/-- The first method of a name. -/
def method? (c : Contract) (name : String) : Option Method :=
  c.methods.find? fun m => m.name == name

/-- The first method with a selector. -/
def bySelector? (c : Contract) (selector : Bytes) : Option Method :=
  c.methods.find? fun m => m.selector == selector

/-- Adds a method or replaces the one of its name. -/
def upsert (c : Contract) (m : Method) : Contract :=
  { c with methods := upsertMethod m c.methods }

/-- Adds methods in order. -/
def merge (c : Contract) (methods : List Method) : Contract := methods.foldl upsert c

end Contract

/-- Contracts by key. -/
abbrev Registry := Table String Contract

namespace Registry

def contract (r : Registry) (key : String) : Result Contract :=
  match r.get? key with
  | some c => .ok c
  | none => .error (.unregistered key)

/-- The methods of some registered contracts, one after the other. -/
def inherited (r : Registry) (bases : List String) : Result (List Method) :=
  return ((← bases.mapM r.contract).map Contract.methods).flatten

/-- Registers a contract built on others, whose methods come first. -/
def compose (r : Registry) (key : String) (bases : List String) (own : Contract) :
    Result (Contract × Registry) := do
  let methods ← r.inherited bases
  let c := ({ name := own.name } : Contract).merge (methods ++ own.methods)
  return (c, r.insert key c)

/-- Adds a method to a registered contract. -/
def upsert (r : Registry) (key : String) (m : Method) : Result (Contract × Registry) := do
  let c := (← r.contract key).upsert m
  return (c, r.insert key c)

end Registry

end AvmSandbox
