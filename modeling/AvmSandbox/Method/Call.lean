import AvmSandbox.Ledger.Basic
import AvmSandbox.Method.Basic
import AvmSandbox.Transaction.Group

/-! # Calls — arguments and admission of a method call

    The application arguments of a call are the selector and the encoded
    arguments.  When there are too many of them, the first fourteen stand alone
    and all others form one tuple.  A call is admitted only in the phases and
    with the actions the method allows. -/

namespace AvmSandbox

/-- How many arguments stand alone when the others are packed. -/
def packedAfter : Nat := Limits.appArgs - 2

namespace Method

/-- Whether some arguments are packed into a tuple. -/
def packs (count : Nat) : Bool := decide (Limits.appArgs ≤ count)

/-- The types of the entries that follow the selector. -/
def entryTypes (types : List Descriptor) : List Descriptor :=
  if packs types.length then types.take packedAfter ++ [.tuple (types.drop packedAfter)]
  else types

/-- The values of the entries that follow the selector. -/
def entryValues (values : List Value) : List Value :=
  if packs values.length then values.take packedAfter ++ [.tuple (values.drop packedAfter)]
  else values

/-- Encodes each entry on its own. -/
def encodeEntries : List Descriptor → List Value → Encoding (List Bytes)
  | t :: ts, v :: vs => do
      let entry ← t.encodeWithin Limits.byteString v
      return entry :: (← encodeEntries ts vs)
  | _, _ => return []

/-- Encodes arguments into the call that is to carry them. -/
def encodeArgs (m : Method) (args : List Value) : Amending Unit := do
  let types := m.valueTypes
  if types.length ≠ args.length then throw (.arityMismatch types.length args.length)
  let entries ← Transaction.embed (encodeEntries (entryTypes types) (entryValues args))
  Transaction.modifyCall fun c => .ok { c with args := m.selector :: entries }

/-- Decodes each entry on its own. -/
def decodeEntries (layout : Layout) : List Descriptor → List Bytes → Result (List Value)
  | t :: ts, raw :: raws => do
      let v ← t.decodeIn layout raw
      return v :: (← decodeEntries layout ts raws)
  | _, _ => .ok []

/-- The arguments in decoded entries, unpacking the tuple of the last ones. -/
def unpackEntries (entries : List Value) : Result (List Value) :=
  match entries.getLast? with
  | some (.tuple rest) => .ok (entries.dropLast ++ rest)
  | some v => .error (v.mismatch "tuple")
  | none => .ok []

/-- Decodes the arguments of a call, which has to carry the method's selector. -/
def decodeArgs (m : Method) (t : Transaction) : Result (List Value) := do
  let c ← t.call
  if c.args.head? ≠ some m.selector then throw (.wrongSelector m.name)
  let types := m.valueTypes
  let expected := entryTypes types
  let entries := c.args.drop 1
  if entries.length ≠ expected.length then
    throw (.arityMismatch expected.length entries.length)
  let values ← decodeEntries t.layout expected entries
  if packs types.length then unpackEntries values else return values

/-- Refuses a transaction of another kind than the declared one. -/
def checkKind (expected : Option TransactionKind) (t : Transaction) : Result Unit :=
  match expected with
  | some kind => if t.kind = kind then .ok () else .error (.wrongTransactionKind kind t.kind)
  | none => .ok ()

/-- The transactions from a position on that match the declared kinds. -/
def takeArgs (g : Group) (index : Nat) :
    List (Option TransactionKind) → Result (List Transaction)
  | [] => .ok []
  | kind :: kinds => do
      let t ← g.transaction index
      checkKind kind t
      return t :: (← takeArgs g (index + 1) kinds)

/-- The transaction arguments of the active call: those right before it. -/
def transactionArgs (m : Method) (g : Group) : Result (List Transaction) := do
  let kinds := m.transactionKinds
  if kinds.length > g.active then
    throw (.missingTransactions m.name kinds.length g.active)
  takeArgs g (g.active - kinds.length) kinds

/-- Refuses a call in the wrong phase of its application. -/
def checkPhase (m : Method) (isCreating : Bool) : Result Unit :=
  match m.creation, isCreating with
  | .disallow, true => .error (.duringCreation m.name)
  | .require, false => .error (.onlyDuringCreation m.name)
  | _, _ => .ok ()

/-- Admits the active call of a group to an application: first the phase, then the action. -/
def checkRouting (m : Method) (l : Ledger) (g : Group) (app : UInt64) : Result Unit := do
  m.checkPhase (← l.application app).isCreating
  let c ← g.activeCall
  if c.onCompletion ∈ m.allowed then return ()
  throw (.onCompletionNotAllowed c.onCompletion m.name)

end Method

end AvmSandbox
