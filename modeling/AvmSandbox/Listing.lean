import AvmSandbox.Ledger.Basic
import AvmSandbox.Transaction.Group

/-! # Listings — what is set in a record

    A test that fails wants to see the records it went wrong on.  A listing
    names the fields of a record together with their contents and leaves out
    those that are zero, empty or false, so that it shows what somebody has
    set.  Some fields are listed always: the kind of a transaction and its
    place in the group, and the id and creator of an asset.

    * `Datum` is the content of a field, `Listing` a list of named fields;
    * `Transaction.listing`, `InnerParams.listing` and `Group.listing`;
    * `Account.listing`, `Application.listing`, `Asset.listing` and
      `Globals.listing`. -/

namespace AvmSandbox

/-- The content of a listed field. -/
inductive Datum where
  /-- An amount or an id. -/
  | amount (n : Nat)
  /-- A position in a list. -/
  | position (n : Nat)
  | flag (b : Bool)
  | text (s : String)
  | bytes (b : Bytes)
  | stack (v : StackValue)
  | encoded (e : EncodedValue)
  | many (items : List Datum)
  | record (fields : List (String × Datum))

/-- Named fields. -/
abbrev Listing := List (String × Datum)

namespace Listing

/-- A field that is listed when it is set. -/
def ifSet (isSet : Bool) (name : String) (content : Datum) : Listing :=
  if isSet then [(name, content)] else []

/-- A field that is listed always. -/
def fixed (name : String) (content : Datum) : Listing := [(name, content)]

def ofCount (name : String) (n : Nat) : Listing := ifSet (n != 0) name (.amount n)

/-- An amount or an id. -/
def ofAmount (name : String) (n : UInt64) : Listing := ofCount name n.toNat

def ofBytes (name : String) (b : Bytes) : Listing := ifSet (!b.isEmpty) name (.bytes b)

/-- A key, a hash or an identifier. -/
def ofHash (name : String) (h : Bytes32) : Listing := ifSet (decide (h ≠ .zero)) name (.bytes h.1)

def ofAddress (name : String) (a : Address) : Listing := ofHash name a.key

/-- A truth value. -/
def ofFlag (name : String) (b : Bool) : Listing := ifSet b name (.flag b)

def ofMany {α : Type} (name : String) (content : α → Datum) (xs : List α) : Listing :=
  ifSet (!xs.isEmpty) name (.many (xs.map content))

end Listing

open Listing

/-! ## Ledger records -/

/-- The two bounds of a schema. -/
def Schema.listing (name : String) (s : Schema) : Listing :=
  ifSet (decide (s ≠ {})) name (.many [.amount s.uints.toNat, .amount s.byteSlices.toNat])

/-- What an application is created with. -/
def Program.listing (p : Program) : Listing :=
  ofBytes "approval" p.approval
    ++ ofBytes "clear" p.clearState
    ++ p.globalSchema.listing "gschema"
    ++ p.localSchema.listing "lschema"
    ++ ofAmount "pages" p.extraPages

/-- What an asset is created with. -/
def AssetParams.listing (p : AssetParams) : Listing :=
  ofAmount "total" p.total
    ++ ofCount "decimals" p.decimals.toNat
    ++ ofFlag "default_frozen" p.defaultFrozen
    ++ ofBytes "unit_name" p.unitName
    ++ ofBytes "name" p.name
    ++ ofBytes "url" p.url
    ++ ofHash "metadata_hash" p.metadataHash
    ++ ofAddress "manager" p.manager
    ++ ofAddress "reserve" p.reserve
    ++ ofAddress "freeze" p.freeze
    ++ ofAddress "clawback" p.clawback

/-- The record of an asset, with its id and creator also when they are zero. -/
def Asset.listing (a : Asset) : Listing :=
  fixed "id" (.amount a.id.toNat)
    ++ fixed "creator" (.bytes a.creator.bytes)
    ++ fixed "params" (.record a.params.listing)

/-- The record of an account. -/
def Account.listing (a : Account) : Listing :=
  ofAmount "balance" a.balance
    ++ ofAmount "min_balance" a.minBalance
    ++ ofAddress "auth" a.authAddress
    ++ ofCount "apps_created" a.appsCreated
    ++ ofCount "apps_opted_in" a.appsOptedIn
    ++ ofCount "assets_created" a.assetsCreated
    ++ ofCount "assets" a.assetsHeld
    ++ ofAmount "extra_app_pages" a.extraPages
    ++ ofMany "opted_apps" (fun id => .amount id.toNat) a.optedIn.keys
    ++ ofMany "holdings"
      (fun (id, h) => .many [.amount id.toNat, .amount h.balance.toNat, .flag h.frozen])
      a.holdings.entries

/-- The record of an application, without local state and boxes. -/
def Application.listing (app : Application) : Listing :=
  ofAmount "id" app.id
    ++ ofAddress "address" app.address
    ++ ofAddress "creator" app.creator
    ++ ofFlag "is_creating" app.isCreating
    ++ app.program.listing
    ++ ofMany "logs" .bytes app.logs
    ++ ofMany "global_state" (fun (key, v) => .many [.bytes key, .stack v])
      (StateStore.values app.globals)

/-- The protocol values, all of them. -/
def Globals.listing (g : Globals) : Listing :=
  let number (name : String) (n : UInt64) : Listing := fixed name (.amount n.toNat)
  number "min_txn_fee" g.minTxnFee
    ++ number "min_balance" g.minBalance
    ++ number "max_txn_life" g.maxTxnLife
    ++ fixed "zero_address" (.bytes g.zeroAddress.bytes)
    ++ number "round" g.round
    ++ number "latest_timestamp" g.latestTimestamp
    ++ fixed "genesis_hash" (.bytes g.genesisHash.1)
    ++ number "caller_application_id" g.callerApplicationId
    ++ number "asset_create_min_balance" g.assetCreateMinBalance
    ++ number "asset_opt_in_min_balance" g.assetOptInMinBalance

/-! ## Transactions -/

/-- The fields of a payment. -/
def Payment.listing (x : Payment) : Listing :=
  ofAddress "receiver" x.receiver
    ++ ofAmount "amount" x.amount
    ++ ofAddress "close_remainder_to" x.closeRemainderTo

/-- The fields of a key registration. -/
def KeyRegistration.listing (x : KeyRegistration) : Listing :=
  ofBytes "vote_pk" x.voteKey
    ++ ofBytes "selection_pk" x.selectionKey
    ++ ofBytes "state_proof_pk" x.stateProofKey
    ++ ofAmount "vote_first" x.voteFirst
    ++ ofAmount "vote_last" x.voteLast
    ++ ofAmount "vote_key_dilution" x.voteKeyDilution
    ++ ofFlag "non_participation" x.nonParticipation

/-- The fields of an asset configuration. -/
def AssetConfig.listing (x : AssetConfig) : Listing :=
  ofAmount "config_asset" x.asset
    ++ fixed "params" (.record x.params.listing)
    ++ ofAmount "created_asset_id" x.createdAsset

/-- The fields of an asset transfer. -/
def AssetTransfer.listing (x : AssetTransfer) : Listing :=
  ofAmount "xfer_asset" x.asset
    ++ ofAmount "asset_amount" x.amount
    ++ ofAddress "asset_sender" x.sender
    ++ ofAddress "asset_receiver" x.receiver
    ++ ofAddress "asset_close_to" x.closeTo

/-- The fields of an asset freeze. -/
def AssetFreeze.listing (x : AssetFreeze) : Listing :=
  ofAmount "freeze_asset" x.asset
    ++ ofAddress "freeze_account" x.account
    ++ ofFlag "frozen" x.frozen

/-- The fields of a call, given its inner transactions as data. -/
def Call.listing {τ : Type} (c : Call τ) (inner : List Datum) : Listing :=
  ofAmount "app_id" c.app
    ++ fixed "oc" (.text c.onCompletion.name)
    ++ ofMany "args" .bytes c.args
    ++ ofMany "accounts" (fun a => .bytes a.bytes) c.accounts
    ++ ofMany "assets" (fun id => .amount id.toNat) c.assets
    ++ ofMany "apps" (fun id => .amount id.toNat) c.apps
    ++ c.program.listing
    ++ ofAmount "created_app_id" c.createdApp
    ++ fixed "encoding" (.text c.encoding.name)
    ++ ofMany "inner" id inner
    ++ ofMany "logs" .bytes c.log.entries
    ++ (c.log.returned.map fun e => ("return", Datum.encoded e)).toList

/-- What every transaction carries. -/
def Header.listing (h : Header) : Listing :=
  ofAddress "sender" h.sender
    ++ ofAmount "fee" h.fee
    ++ ofAmount "first_valid" h.firstValid
    ++ ofAmount "last_valid" h.lastValid
    ++ ofBytes "note" h.note
    ++ ofHash "lease" h.lease
    ++ ofAddress "rekey_to" h.rekeyTo
    ++ fixed "group_index" (.position h.groupIndex)
    ++ ofHash "txn_id" h.id

/-- The fields of a kind, given the inner transactions as data. -/
def Body.listing {τ : Type} (body : Body τ) (inner : List Datum) : Listing :=
  match body with
  | payment x => x.listing
  | keyRegistration x => x.listing
  | assetConfig x => x.listing
  | assetTransfer x => x.listing
  | assetFreeze x => x.listing
  | call c => c.listing inner

def Transaction.listing (t : Transaction) : Listing :=
  fixed "type" (.text t.kind.name)
    ++ t.header.listing
    ++ t.body.listing (t.body.inner.attach.map fun s => .record s.1.listing)
termination_by sizeOf t
decreasing_by exact t.sizeOf_inner s.2

/-- A transaction as the content of a field. -/
def Transaction.datum (t : Transaction) : Datum := .record t.listing

/-- An inner transaction under composition. -/
def InnerParams.listing (p : InnerParams) : Listing :=
  fixed "type" (.text p.kind.name)
    ++ (p.sender.map fun a => ("sender", Datum.bytes a.bytes)).toList
    ++ ofAmount "fee" p.fee
    ++ ofBytes "note" p.note
    ++ ofAddress "rekey_to" p.rekeyTo
    ++ p.body.listing (p.body.inner.map Transaction.datum)

/-- A group, with the scratch slots that are not zero. -/
def Group.listing (g : Group) : Listing :=
  fixed "active" (.position g.active)
    ++ ofMany "txns" Transaction.datum g.transactions
    ++ ofFlag "composing" g.composing.isSome
    ++ ofMany "itxn_groups" (fun ts => .many (ts.map Transaction.datum)) g.innerGroups
    ++ ofMany "scratch" (fun (i, slot, v) => .many [.position i, .position slot, .stack v])
      g.usedScratch

end AvmSandbox
