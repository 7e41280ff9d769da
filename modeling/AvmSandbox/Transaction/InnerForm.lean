import AvmSandbox.Transaction.Inner

/-! # Inner fields by name — a field that waits for its content

    The language of contracts names a field and gives it a content.  A form is
    a named field without its content; it says of which type the content is. -/

namespace AvmSandbox

/-- A field of an inner transaction that waits for its content. -/
inductive InnerForm where
  | kind (make : TransactionKind → InnerField)
  | address (make : Address → InnerField)
  | amount (make : UInt64 → InnerField)
  | decimals (make : UInt32 → InnerField)
  | bytes (make : Bytes → InnerField)
  | hash (make : Bytes32 → InnerField)
  | flag (make : Bool → InnerField)
  | action (make : OnCompletion → InnerField)

namespace InnerForm

/-- The name of the field, which does not depend on its content. -/
def name : InnerForm → String
  | kind make => (make .payment).name
  | address make => (make .zero).name
  | amount make => (make 0).name
  | decimals make => (make 0).name
  | bytes make => (make []).name
  | hash make => (make .zero).name
  | flag make => (make false).name
  | action make => (make .noOp).name

/-- Every field. -/
def all : List InnerForm := [
  kind .kind,
  address .sender,
  amount .fee,
  bytes .note,
  address .rekeyTo,
  address .receiver,
  amount .amount,
  address .closeRemainderTo,
  bytes .voteKey,
  bytes .selectionKey,
  amount .voteFirst,
  amount .voteLast,
  amount .voteKeyDilution,
  flag .nonParticipation,
  amount .configAsset,
  amount .assetTotal,
  decimals .assetDecimals,
  flag .assetDefaultFrozen,
  bytes .assetUnitName,
  bytes .assetName,
  bytes .assetUrl,
  hash .assetMetadataHash,
  address .assetManager,
  address .assetReserve,
  address .assetFreeze,
  address .assetClawback,
  amount .transferAsset,
  amount .assetAmount,
  address .assetSender,
  address .assetReceiver,
  address .assetCloseTo,
  amount .freezeAsset,
  address .freezeAccount,
  flag .frozen,
  amount .application,
  action .onCompletion,
  bytes .arg,
  address .account,
  amount .asset,
  amount .app,
  bytes .approval,
  bytes .clearState,
  amount .globalUints,
  amount .globalByteSlices,
  amount .localUints,
  amount .localByteSlices,
  amount .extraPages]

/-- The field with a name. -/
def ofName? (s : String) : Option InnerForm := all.find? fun form => form.name = s

end InnerForm

end AvmSandbox
