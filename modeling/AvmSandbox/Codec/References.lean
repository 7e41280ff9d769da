import AvmSandbox.Fault

/-! # References — resources named by a one-byte index

    An application call carries arrays of the accounts, assets and applications
    it touches, and an encoded reference may be an index into them.  Index 0 of
    the accounts is the sender and index 0 of the applications is the called
    one; neither is stored.  A resource that is looked up and missing is
    appended, so indexes that were handed out keep their meaning.

    * `References` holds the arrays, `Layout` says whether they are used at all;
    * `accountIndex`, `assetIndex`, `applicationIndex` find or append;
    * `accountAt`, `assetAt`, `applicationAt` resolve. -/

namespace AvmSandbox

/-- How a call lays out the references among its arguments. -/
inductive ReferenceEncoding where
  /-- A one-byte index into the arrays of the call. -/
  | index
  /-- The address or id itself. -/
  | value
  deriving DecidableEq, Repr, Inhabited

namespace ReferenceEncoding

/-- The name used in settings. -/
def name : ReferenceEncoding → String
  | index => "index"
  | value => "value"

def ofName? (s : String) : Option ReferenceEncoding := [index, value].find? fun e => e.name = s

end ReferenceEncoding

/-- The reference arrays of an application call. -/
structure References where
  /-- The account at index 0. -/
  sender : Address
  /-- The application at index 0. -/
  called : UInt64
  /-- The accounts from index 1 on. -/
  accounts : List Address
  /-- The assets from index 0 on. -/
  assets : List UInt64
  /-- The applications from index 1 on. -/
  apps : List UInt64

/-- How references are laid out: by index into some arrays, or by value when there are none. -/
abbrev Layout := Option References

/-- A computation that may append to reference arrays.  What was appended stays when a later
    step fails. -/
abbrev Referencing := ExceptT Fault (StateM References)

namespace References

/-- The position of `x` in `xs`, after appending it when it is missing. -/
def position {α : Type} [DecidableEq α] (x : α) (xs : List α) : Nat × List α :=
  match xs.idxOf? x with
  | some i => (i, xs)
  | none => (xs.length, xs ++ [x])

/-- An index as a single byte. -/
def oneByte (index : Nat) : Result UInt8 :=
  if index ≤ Limits.oneByte then .ok (UInt8.ofNat index)
  else .error (.unresolvedReference (.indexTooLarge index))

def accountIndex (address : Address) : Referencing UInt8 := do
  let refs ← get
  if address = refs.sender then return 0
  let (i, accounts) := position address refs.accounts
  set { refs with accounts }
  oneByte (i + 1)

def assetIndex (id : UInt64) : Referencing UInt8 := do
  let refs ← get
  let (i, assets) := position id refs.assets
  set { refs with assets }
  oneByte i

def applicationIndex (id : UInt64) : Referencing UInt8 := do
  let refs ← get
  if id = refs.called then return 0
  let (i, apps) := position id refs.apps
  set { refs with apps }
  oneByte (i + 1)

def accountAt (refs : References) (index : UInt8) : Result Address :=
  match index.toNat with
  | 0 => .ok refs.sender
  | i + 1 =>
      match refs.accounts[i]? with
      | some address => .ok address
      | none => .error (.unresolvedReference (.account (i + 1)))

def assetAt (refs : References) (index : UInt8) : Result UInt64 :=
  match refs.assets[index.toNat]? with
  | some id => .ok id
  | none => .error (.unresolvedReference (.asset index.toNat))

def applicationAt (refs : References) (index : UInt8) : Result UInt64 :=
  match index.toNat with
  | 0 => .ok refs.called
  | i + 1 =>
      match refs.apps[i]? with
      | some id => .ok id
      | none => .error (.unresolvedReference (.application (i + 1)))

end References

end AvmSandbox
