import AvmSandbox.Ledger.Records
import AvmSandbox.Transaction.CallLog

/-! # Transactions — a common header and a body by kind

    The body of an application call also collects what the call produces: its
    log, the id of an application it creates, and the inner transactions it
    issues.  The arrays of referenced resources are the reference layout of the
    call's arguments.

    * `Transaction` with `Header`, `Body` and the fields of each kind;
    * `layout` and `embed`: encoding within the arrays of a call;
    * the index operations, which also answer for the sender of any kind. -/

namespace AvmSandbox

/-- What every transaction carries. -/
structure Header where
  sender : Address := .zero
  fee : UInt64 := 0
  firstValid : UInt64 := 0
  lastValid : UInt64 := 0
  note : Bytes := []
  lease : Bytes32 := .zero
  rekeyTo : Address := .zero
  /-- The position in the group. -/
  groupIndex : Nat := 0
  id : Bytes32 := .zero
  deriving DecidableEq, Inhabited

structure Payment where
  receiver : Address := .zero
  amount : UInt64 := 0
  closeRemainderTo : Address := .zero
  deriving DecidableEq

/-- A registration of participation keys. -/
structure KeyRegistration where
  voteKey : Bytes := []
  selectionKey : Bytes := []
  stateProofKey : Bytes := []
  voteFirst : UInt64 := 0
  voteLast : UInt64 := 0
  voteKeyDilution : UInt64 := 0
  nonParticipation : Bool := false
  deriving DecidableEq

/-- The creation or change of an asset. -/
structure AssetConfig where
  /-- The asset that changes; 0 creates one. -/
  asset : UInt64 := 0
  params : AssetParams := {}
  /-- The asset this transaction has created. -/
  createdAsset : UInt64 := 0
  deriving DecidableEq

structure AssetTransfer where
  asset : UInt64 := 0
  amount : UInt64 := 0
  /-- Whom the asset is taken back from; zero for an ordinary transfer. -/
  sender : Address := .zero
  receiver : Address := .zero
  closeTo : Address := .zero
  deriving DecidableEq

/-- The freezing of an account's holding. -/
structure AssetFreeze where
  asset : UInt64 := 0
  account : Address := .zero
  frozen : Bool := false
  deriving DecidableEq

/-- An application call, with inner transactions of type `τ`. -/
structure Call (τ : Type) where
  /-- The called application; 0 creates one. -/
  app : UInt64 := 0
  onCompletion : OnCompletion := .noOp
  args : List Bytes := []
  accounts : List Address := []
  assets : List UInt64 := []
  apps : List UInt64 := []
  program : Program := {}
  /-- How references among the arguments are laid out. -/
  encoding : ReferenceEncoding := .index
  /-- The application this call has created. -/
  createdApp : UInt64 := 0
  /-- The inner transactions this call has issued, group after group. -/
  inner : List τ := []
  log : CallLog := {}

/-- What depends on the kind of transaction. -/
inductive Body (τ : Type) where
  | payment (fields : Payment)
  | keyRegistration (fields : KeyRegistration)
  | assetConfig (fields : AssetConfig)
  | assetTransfer (fields : AssetTransfer)
  | assetFreeze (fields : AssetFreeze)
  | call (fields : Call τ)

/-- A transaction, top-level or inner. -/
structure Transaction where
  header : Header
  body : Body Transaction

/-- The fields of an application call. -/
abbrev AppCall := Call Transaction

/-- A computation that may change a transaction.  What was changed stays when a later step
    fails. -/
abbrev Amending := ExceptT Fault (StateM Transaction)

namespace Body

variable {τ : Type}

def kind : Body τ → TransactionKind
  | payment _ => .payment
  | keyRegistration _ => .keyRegistration
  | assetConfig _ => .assetConfig
  | assetTransfer _ => .assetTransfer
  | assetFreeze _ => .assetFreeze
  | call _ => .applicationCall

/-- The inner transactions issued by a call. -/
def inner : Body τ → List τ
  | call c => c.inner
  | _ => []

/-- The body of a kind with nothing set. -/
def empty : TransactionKind → Body τ
  | .payment => payment {}
  | .keyRegistration => keyRegistration {}
  | .assetConfig => assetConfig {}
  | .assetTransfer => assetTransfer {}
  | .assetFreeze => assetFreeze {}
  | .applicationCall => call {}

@[simp] theorem kind_empty (k : TransactionKind) : (empty k : Body τ).kind = k := by
  cases k <;> rfl

end Body

namespace Call

variable {τ : Type}

/-- The reference arrays of a call from a sender. -/
def references (c : Call τ) (sender : Address) : References :=
  ⟨sender, c.app, c.accounts, c.assets, c.apps⟩

/-- Takes over reference arrays. -/
def setReferences (c : Call τ) (refs : References) : Call τ :=
  { c with accounts := refs.accounts, assets := refs.assets, apps := refs.apps }

end Call

namespace Transaction

def kind (t : Transaction) : TransactionKind := t.body.kind

/-- The fields of an application call, if it is one. -/
def call? (t : Transaction) : Option AppCall :=
  match t.body with
  | .call c => some c
  | _ => none

/-- Inner transactions are smaller than the one that has issued them. -/
theorem sizeOf_inner (t : Transaction) {s : Transaction} (hs : s ∈ t.body.inner) :
    sizeOf s < sizeOf t := by
  obtain ⟨header, body⟩ := t
  cases body with
  | call c =>
      have hlt := List.sizeOf_lt_of_mem (show s ∈ c.inner from hs)
      cases c
      simp only [mk.sizeOf_spec, Body.call.sizeOf_spec, Call.mk.sizeOf_spec]
      simp only at hlt
      omega
  | _ => simp [Body.inner] at hs

/-- Whether the transaction is an application call. -/
def isCall (t : Transaction) : Bool := t.call?.isSome

/-- The fields of an application call. -/
def call (t : Transaction) : Result AppCall :=
  match t.call? with
  | some c => .ok c
  | none => .error (.wrongTransactionKind .applicationCall t.kind)

/-- Changes the fields of an application call. -/
def modifyCall (f : AppCall → Result AppCall) : Amending Unit := do
  let t ← get
  let c ← f (← t.call)
  set { t with body := .call c }

/-- An application call with the given fields. -/
def ofCall (sender : Address) (c : AppCall) : Transaction := ⟨{ sender }, .call c⟩

/-- The method selector of an application call: its first argument, if that has four bytes. -/
def selector? (t : Transaction) : Option Bytes :=
  (t.call?.bind fun c => c.args.head?).filter fun arg => arg.length = 4

/-! ## References -/

/-- The arrays in which the call's references are laid out, if they are laid out by index. -/
def layout (t : Transaction) : Layout :=
  t.call?.bind fun c =>
    match c.encoding with
    | .index => some (c.references t.header.sender)
    | .value => none

/-- Takes over the arrays of a layout. -/
def setLayout (t : Transaction) (layout : Layout) : Transaction :=
  match t.body, layout with
  | .call c, some refs => { t with body := .call (c.setReferences refs) }
  | _, _ => t

/-- Runs an encoding within the layout of the transaction, which takes over what the encoding
    appends. -/
def embed {α : Type} (action : Encoding α) : Amending α := do
  let t ← get
  let (result, layout) := action.run t.layout
  set (t.setLayout layout)
  match result with
  | .ok a => return a
  | .error e => throw e

/-- Decodes a buffer within the layout of the transaction. -/
def decode (t : Transaction) (framing : Framing) (type : Descriptor) (buffer : Bytes) :
    Result Value := do
  type.decodeIn t.layout (← framing.body buffer)

/-- Looks a resource up in the arrays of the call, however its arguments are encoded. -/
def lookUp (index : Referencing UInt8) : Amending UInt8 := do
  let t ← get
  match t.body with
  | .call c =>
      let (result, refs) := index.run (c.references t.header.sender)
      set ({ t with body := .call (c.setReferences refs) } : Transaction)
      match result with
      | .ok i => return i
      | .error e => throw e
  | _ => throw (.unresolvedReference (.noArrays t.kind))

/-- The index of an account; the sender of any transaction has index 0. -/
def accountIndex (address : Address) : Amending UInt8 := do
  if address = (← get).header.sender then return 0
  lookUp (References.accountIndex address)

def assetIndex (id : UInt64) : Amending UInt8 := lookUp (References.assetIndex id)

def applicationIndex (id : UInt64) : Amending UInt8 := lookUp (References.applicationIndex id)

/-- The reference arrays of a call. -/
def references (t : Transaction) : Result References :=
  match t.call? with
  | some c => .ok (c.references t.header.sender)
  | none => .error (.unresolvedReference (.noArrays t.kind))

def accountAt (t : Transaction) (index : UInt8) : Result Address := do
  if index = 0 then return t.header.sender
  (← t.references).accountAt index

def assetAt (t : Transaction) (index : UInt8) : Result UInt64 := do
  (← t.references).assetAt index

def applicationAt (t : Transaction) (index : UInt8) : Result UInt64 := do
  (← t.references).applicationAt index

end Transaction

end AvmSandbox
