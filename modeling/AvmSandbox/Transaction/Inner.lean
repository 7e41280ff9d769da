import AvmSandbox.Transaction.Basic

/-! # Inner transactions under composition — field by field

    A contract builds an inner transaction by assigning its fields one at a
    time.  Naming another kind starts an empty body of that kind; every other
    field is accepted only by the kind it belongs to.

    * `InnerField` is one assignment, `InnerParams` the fields assigned so far;
    * `InnerParams.assign` carries an assignment out or refuses it;
    * `InnerParams.toTransaction` forms the transaction. -/

namespace AvmSandbox

/-- One assignment to the inner transaction under composition. -/
inductive InnerField where
  | kind (k : TransactionKind)
  | sender (a : Address)
  | fee (n : UInt64)
  | note (b : Bytes)
  | rekeyTo (a : Address)
  -- payment
  | receiver (a : Address)
  | amount (n : UInt64)
  | closeRemainderTo (a : Address)
  -- key registration
  | voteKey (b : Bytes)
  | selectionKey (b : Bytes)
  | voteFirst (n : UInt64)
  | voteLast (n : UInt64)
  | voteKeyDilution (n : UInt64)
  | nonParticipation (b : Bool)
  -- asset configuration
  | configAsset (id : UInt64)
  | assetTotal (n : UInt64)
  | assetDecimals (n : UInt32)
  | assetDefaultFrozen (b : Bool)
  | assetUnitName (b : Bytes)
  | assetName (b : Bytes)
  | assetUrl (b : Bytes)
  | assetMetadataHash (h : Bytes32)
  | assetManager (a : Address)
  | assetReserve (a : Address)
  | assetFreeze (a : Address)
  | assetClawback (a : Address)
  -- asset transfer
  | transferAsset (id : UInt64)
  | assetAmount (n : UInt64)
  | assetSender (a : Address)
  | assetReceiver (a : Address)
  | assetCloseTo (a : Address)
  -- asset freeze
  | freezeAsset (id : UInt64)
  | freezeAccount (a : Address)
  | frozen (b : Bool)
  -- application call
  | application (id : UInt64)
  | onCompletion (action : OnCompletion)
  /-- Appends an argument. -/
  | arg (b : Bytes)
  /-- Appends a referenced account. -/
  | account (a : Address)
  /-- Appends a referenced asset. -/
  | asset (id : UInt64)
  /-- Appends a referenced application. -/
  | app (id : UInt64)
  | approval (b : Bytes)
  | clearState (b : Bytes)
  | globalUints (n : UInt64)
  | globalByteSlices (n : UInt64)
  | localUints (n : UInt64)
  | localByteSlices (n : UInt64)
  | extraPages (n : UInt64)
  deriving DecidableEq

namespace InnerField

/-- The name of the assigned field in the language of contracts. -/
def name : InnerField → String
  | kind _ => "TypeEnum"
  | sender _ => "Sender"
  | fee _ => "Fee"
  | note _ => "Note"
  | rekeyTo _ => "RekeyTo"
  | receiver _ => "Receiver"
  | amount _ => "Amount"
  | closeRemainderTo _ => "CloseRemainderTo"
  | voteKey _ => "VotePK"
  | selectionKey _ => "SelectionPK"
  | voteFirst _ => "VoteFirst"
  | voteLast _ => "VoteLast"
  | voteKeyDilution _ => "VoteKeyDilution"
  | nonParticipation _ => "Nonparticipation"
  | configAsset _ => "ConfigAsset"
  | assetTotal _ => "ConfigAssetTotal"
  | assetDecimals _ => "ConfigAssetDecimals"
  | assetDefaultFrozen _ => "ConfigAssetDefaultFrozen"
  | assetUnitName _ => "ConfigAssetUnitName"
  | assetName _ => "ConfigAssetName"
  | assetUrl _ => "ConfigAssetURL"
  | assetMetadataHash _ => "ConfigAssetMetadataHash"
  | assetManager _ => "ConfigAssetManager"
  | assetReserve _ => "ConfigAssetReserve"
  | assetFreeze _ => "ConfigAssetFreeze"
  | assetClawback _ => "ConfigAssetClawback"
  | transferAsset _ => "XferAsset"
  | assetAmount _ => "AssetAmount"
  | assetSender _ => "AssetSender"
  | assetReceiver _ => "AssetReceiver"
  | assetCloseTo _ => "AssetCloseTo"
  | freezeAsset _ => "FreezeAsset"
  | freezeAccount _ => "FreezeAssetAccount"
  | frozen _ => "FreezeAssetFrozen"
  | application _ => "ApplicationID"
  | onCompletion _ => "OnCompletion"
  | arg _ => "ApplicationArgs"
  | account _ => "Accounts"
  | asset _ => "Assets"
  | app _ => "Applications"
  | approval _ => "ApprovalProgram"
  | clearState _ => "ClearStateProgram"
  | globalUints _ => "GlobalNumUint"
  | globalByteSlices _ => "GlobalNumByteSlice"
  | localUints _ => "LocalNumUint"
  | localByteSlices _ => "LocalNumByteSlice"
  | extraPages _ => "ExtraProgramPages"

end InnerField

/-- The fields assigned to one inner transaction. -/
structure InnerParams where
  /-- The sender, which is the issuing application when absent. -/
  sender : Option Address := none
  fee : UInt64 := 0
  note : Bytes := []
  rekeyTo : Address := .zero
  body : Body Transaction := .empty .payment

namespace InnerParams

/-- The kind of transaction under composition. -/
def kind (p : InnerParams) : TransactionKind := p.body.kind

def payment (receiver : Address) (amount : UInt64) : InnerParams where
  body := .payment { receiver, amount }

def appCall (app : UInt64) (onCompletion : OnCompletion) (args : List Bytes) : InnerParams where
  body := .call { app, onCompletion, args }

/-- The creation of an asset. -/
def assetConfig (params : AssetParams) : InnerParams where
  body := .assetConfig { params }

variable (p : InnerParams)

/-- The refusal of a field by the kind under composition. -/
def refuse (field : InnerField) : Result InnerParams :=
  .error (.invalidField field.name p.kind)

/-- Changes a payment. -/
def onPayment (field : InnerField) (f : Payment → Payment) : Result InnerParams :=
  match p.body with
  | .payment x => .ok { p with body := .payment (f x) }
  | _ => p.refuse field

/-- Changes a key registration. -/
def onKeyRegistration (field : InnerField) (f : KeyRegistration → KeyRegistration) :
    Result InnerParams :=
  match p.body with
  | .keyRegistration x => .ok { p with body := .keyRegistration (f x) }
  | _ => p.refuse field

/-- Changes an asset configuration. -/
def onAssetConfig (field : InnerField) (f : AssetConfig → AssetConfig) : Result InnerParams :=
  match p.body with
  | .assetConfig x => .ok { p with body := .assetConfig (f x) }
  | _ => p.refuse field

/-- Changes the parameters of an asset configuration. -/
def onAssetParams (field : InnerField) (f : AssetParams → AssetParams) : Result InnerParams :=
  p.onAssetConfig field fun x => { x with params := f x.params }

/-- Changes an asset transfer. -/
def onAssetTransfer (field : InnerField) (f : AssetTransfer → AssetTransfer) :
    Result InnerParams :=
  match p.body with
  | .assetTransfer x => .ok { p with body := .assetTransfer (f x) }
  | _ => p.refuse field

/-- Changes an asset freeze. -/
def onAssetFreeze (field : InnerField) (f : AssetFreeze → AssetFreeze) : Result InnerParams :=
  match p.body with
  | .assetFreeze x => .ok { p with body := .assetFreeze (f x) }
  | _ => p.refuse field

/-- Changes an application call. -/
def onCall (field : InnerField) (f : AppCall → AppCall) : Result InnerParams :=
  match p.body with
  | .call x => .ok { p with body := .call (f x) }
  | _ => p.refuse field

/-- Changes the program of an application call. -/
def onProgram (field : InnerField) (f : Program → Program) : Result InnerParams :=
  p.onCall field fun x => { x with program := f x.program }

/-- Carries out one assignment. -/
def assign (field : InnerField) : Result InnerParams :=
  match field with
  | .kind k => .ok (if k = p.kind then p else { p with body := .empty k })
  | .sender a => .ok { p with sender := some a }
  | .fee n => .ok { p with fee := n }
  | .note b => .ok { p with note := b }
  | .rekeyTo a => .ok { p with rekeyTo := a }
  | .receiver a => p.onPayment field fun x => { x with receiver := a }
  | .amount n => p.onPayment field fun x => { x with amount := n }
  | .closeRemainderTo a => p.onPayment field fun x => { x with closeRemainderTo := a }
  | .voteKey b => p.onKeyRegistration field fun x => { x with voteKey := b }
  | .selectionKey b => p.onKeyRegistration field fun x => { x with selectionKey := b }
  | .voteFirst n => p.onKeyRegistration field fun x => { x with voteFirst := n }
  | .voteLast n => p.onKeyRegistration field fun x => { x with voteLast := n }
  | .voteKeyDilution n => p.onKeyRegistration field fun x => { x with voteKeyDilution := n }
  | .nonParticipation b => p.onKeyRegistration field fun x => { x with nonParticipation := b }
  | .configAsset id => p.onAssetConfig field fun x => { x with asset := id }
  | .assetTotal n => p.onAssetParams field fun x => { x with total := n }
  | .assetDecimals n => p.onAssetParams field fun x => { x with decimals := n }
  | .assetDefaultFrozen b => p.onAssetParams field fun x => { x with defaultFrozen := b }
  | .assetUnitName b => p.onAssetParams field fun x => { x with unitName := b }
  | .assetName b => p.onAssetParams field fun x => { x with name := b }
  | .assetUrl b => p.onAssetParams field fun x => { x with url := b }
  | .assetMetadataHash h => p.onAssetParams field fun x => { x with metadataHash := h }
  | .assetManager a => p.onAssetParams field fun x => { x with manager := a }
  | .assetReserve a => p.onAssetParams field fun x => { x with reserve := a }
  | .assetFreeze a => p.onAssetParams field fun x => { x with freeze := a }
  | .assetClawback a => p.onAssetParams field fun x => { x with clawback := a }
  | .transferAsset id => p.onAssetTransfer field fun x => { x with asset := id }
  | .assetAmount n => p.onAssetTransfer field fun x => { x with amount := n }
  | .assetSender a => p.onAssetTransfer field fun x => { x with sender := a }
  | .assetReceiver a => p.onAssetTransfer field fun x => { x with receiver := a }
  | .assetCloseTo a => p.onAssetTransfer field fun x => { x with closeTo := a }
  | .freezeAsset id => p.onAssetFreeze field fun x => { x with asset := id }
  | .freezeAccount a => p.onAssetFreeze field fun x => { x with account := a }
  | .frozen b => p.onAssetFreeze field fun x => { x with frozen := b }
  | .application id => p.onCall field fun x => { x with app := id }
  | .onCompletion action => p.onCall field fun x => { x with onCompletion := action }
  | .arg b => p.onCall field fun x => { x with args := x.args ++ [b] }
  | .account a => p.onCall field fun x => { x with accounts := x.accounts ++ [a] }
  | .asset id => p.onCall field fun x => { x with assets := x.assets ++ [id] }
  | .app id => p.onCall field fun x => { x with apps := x.apps ++ [id] }
  | .approval b => p.onProgram field fun x => { x with approval := b }
  | .clearState b => p.onProgram field fun x => { x with clearState := b }
  | .globalUints n =>
      p.onProgram field fun x => { x with globalSchema := { x.globalSchema with uints := n } }
  | .globalByteSlices n =>
      p.onProgram field fun x =>
        { x with globalSchema := { x.globalSchema with byteSlices := n } }
  | .localUints n =>
      p.onProgram field fun x => { x with localSchema := { x.localSchema with uints := n } }
  | .localByteSlices n =>
      p.onProgram field fun x =>
        { x with localSchema := { x.localSchema with byteSlices := n } }
  | .extraPages n => p.onProgram field fun x => { x with extraPages := n }

/-- The inner transactions that an earlier submission left on an application call. -/
def nested : List Transaction := p.body.inner

/-- The fields without the inner transactions of an earlier submission. -/
def withoutNested : InnerParams :=
  match p.body with
  | .call c => { p with body := .call { c with inner := [] } }
  | _ => p

/-- The transaction with these fields, at a position in its group. -/
def toTransaction (issuer : Address) (groupIndex : Nat) (id : Bytes32) : Transaction where
  header :=
    { sender := p.sender.getD issuer
      fee := p.fee
      note := p.note
      rekeyTo := p.rekeyTo
      groupIndex
      id }
  body := p.body

end InnerParams

end AvmSandbox
