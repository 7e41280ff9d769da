import AvmSandbox.Proofs.Sandbox.Session

/-! # Assignments — the fields of an inner transaction are independent

    The fields of an inner transaction are kept in a record with a body by kind.
    A place is one component of that record, whether or not a field assigns it;
    the places of a body are there only while the transaction is of its kind, and
    together the places tell everything about the record.

    An assignment other than that of the kind has one place.  It is accepted if
    the place is there, and then changes the content of the place and of no
    other one.  So two assignments to different fields do not notice each other.

    * `InnerParams.Place` and `InnerParams.read`: the places and their contents;
    * `InnerField.change?`: what an assignment does to which place;
    * `eq_of_read`, `isSome_read`: the places tell everything, and the kind which are there;
    * `goes_assign`: one assignment;
    * `after_comm`: two assignments to different places;
    * `Run.run_assignInner`: assignments in a session;
    * `assignments_independent`: all of it. -/

namespace AvmSandbox

namespace InnerParams

/-! ## Places -/

/-- A component of the fields of an inner transaction. -/
inductive Place where
  | sender
  | fee
  | note
  | rekeyTo
  -- payment
  | receiver
  | amount
  | closeRemainderTo
  -- key registration
  | voteKey
  | selectionKey
  | stateProofKey
  | voteFirst
  | voteLast
  | voteKeyDilution
  | nonParticipation
  -- asset configuration
  | configAsset
  | assetTotal
  | assetDecimals
  | assetDefaultFrozen
  | assetUnitName
  | assetName
  | assetUrl
  | assetMetadataHash
  | assetManager
  | assetReserve
  | assetFreeze
  | assetClawback
  | createdAsset
  -- asset transfer
  | transferAsset
  | assetAmount
  | assetSender
  | assetReceiver
  | assetCloseTo
  -- asset freeze
  | freezeAsset
  | freezeAccount
  | frozen
  -- application call
  | application
  | onCompletion
  | args
  | accounts
  | assets
  | apps
  | approval
  | clearState
  | globalUints
  | globalByteSlices
  | localUints
  | localByteSlices
  | extraPages
  | encoding
  | createdApp
  | inner
  | log
  deriving DecidableEq

namespace Place

/-- What a place holds. -/
def Content : Place → Type
  | sender => Option Address
  | rekeyTo | receiver | closeRemainderTo => Address
  | assetManager | assetReserve | assetFreeze | assetClawback => Address
  | assetSender | assetReceiver | assetCloseTo | freezeAccount => Address
  | fee | amount | voteFirst | voteLast | voteKeyDilution => UInt64
  | configAsset | assetTotal | createdAsset => UInt64
  | transferAsset | assetAmount | freezeAsset => UInt64
  | application | createdApp | extraPages => UInt64
  | globalUints | globalByteSlices | localUints | localByteSlices => UInt64
  | assetDecimals => UInt32
  | note | voteKey | selectionKey | stateProofKey => Bytes
  | assetUnitName | assetName | assetUrl | approval | clearState => Bytes
  | assetMetadataHash => Bytes32
  | nonParticipation | assetDefaultFrozen | frozen => Bool
  | onCompletion => OnCompletion
  | args => List Bytes
  | accounts => List Address
  | assets | apps => List UInt64
  | encoding => ReferenceEncoding
  | inner => List Transaction
  | log => CallLog

/-- The only kind of transaction with the place; the places in front of the bodies are there in
    every kind. -/
def kind? : Place → Option TransactionKind
  | sender | fee | note | rekeyTo => none
  | receiver | amount | closeRemainderTo => some .payment
  | voteKey | selectionKey | stateProofKey => some .keyRegistration
  | voteFirst | voteLast | voteKeyDilution | nonParticipation => some .keyRegistration
  | configAsset | assetTotal | assetDecimals | assetDefaultFrozen => some .assetConfig
  | assetUnitName | assetName | assetUrl | assetMetadataHash => some .assetConfig
  | assetManager | assetReserve | assetFreeze | assetClawback => some .assetConfig
  | createdAsset => some .assetConfig
  | transferAsset | assetAmount | assetSender | assetReceiver => some .assetTransfer
  | assetCloseTo => some .assetTransfer
  | freezeAsset | freezeAccount | frozen => some .assetFreeze
  | application | onCompletion | args | accounts | assets | apps => some .applicationCall
  | approval | clearState | extraPages => some .applicationCall
  | globalUints | globalByteSlices | localUints | localByteSlices => some .applicationCall
  | encoding | createdApp | inner | log => some .applicationCall

/-- A place that only transactions of a kind have. -/
def ofKind : TransactionKind → Place
  | .payment => receiver
  | .keyRegistration => voteKey
  | .assetConfig => configAsset
  | .assetTransfer => transferAsset
  | .assetFreeze => freezeAsset
  | .applicationCall => application

theorem kind?_ofKind (k : TransactionKind) : (ofKind k).kind? = some k := by
  cases k <;> rfl

/-- What a place holds when nothing was assigned. -/
def blank : (place : Place) → place.Content
  | sender => none
  | rekeyTo | receiver | closeRemainderTo => Address.zero
  | assetManager | assetReserve | assetFreeze | assetClawback => Address.zero
  | assetSender | assetReceiver | assetCloseTo | freezeAccount => Address.zero
  | fee | amount | voteFirst | voteLast | voteKeyDilution => (0 : UInt64)
  | configAsset | assetTotal | createdAsset => (0 : UInt64)
  | transferAsset | assetAmount | freezeAsset => (0 : UInt64)
  | application | createdApp | extraPages => (0 : UInt64)
  | globalUints | globalByteSlices | localUints | localByteSlices => (0 : UInt64)
  | assetDecimals => (0 : UInt32)
  | note | voteKey | selectionKey | stateProofKey => ([] : Bytes)
  | assetUnitName | assetName | assetUrl | approval | clearState => ([] : Bytes)
  | assetMetadataHash => Bytes32.zero
  | nonParticipation | assetDefaultFrozen | frozen => false
  | onCompletion => OnCompletion.noOp
  | args => ([] : List Bytes)
  | accounts => ([] : List Address)
  | assets | apps => ([] : List UInt64)
  | encoding => ReferenceEncoding.index
  | inner => ([] : List Transaction)
  | log => ({ plain := [], returned := none } : CallLog)

/-- The name of the field that assigns a place; some places no field assigns. -/
def field : Place → String
  | sender => "Sender"
  | fee => "Fee"
  | note => "Note"
  | rekeyTo => "RekeyTo"
  | receiver => "Receiver"
  | amount => "Amount"
  | closeRemainderTo => "CloseRemainderTo"
  | voteKey => "VotePK"
  | selectionKey => "SelectionPK"
  | voteFirst => "VoteFirst"
  | voteLast => "VoteLast"
  | voteKeyDilution => "VoteKeyDilution"
  | nonParticipation => "Nonparticipation"
  | configAsset => "ConfigAsset"
  | assetTotal => "ConfigAssetTotal"
  | assetDecimals => "ConfigAssetDecimals"
  | assetDefaultFrozen => "ConfigAssetDefaultFrozen"
  | assetUnitName => "ConfigAssetUnitName"
  | assetName => "ConfigAssetName"
  | assetUrl => "ConfigAssetURL"
  | assetMetadataHash => "ConfigAssetMetadataHash"
  | assetManager => "ConfigAssetManager"
  | assetReserve => "ConfigAssetReserve"
  | assetFreeze => "ConfigAssetFreeze"
  | assetClawback => "ConfigAssetClawback"
  | transferAsset => "XferAsset"
  | assetAmount => "AssetAmount"
  | assetSender => "AssetSender"
  | assetReceiver => "AssetReceiver"
  | assetCloseTo => "AssetCloseTo"
  | freezeAsset => "FreezeAsset"
  | freezeAccount => "FreezeAssetAccount"
  | frozen => "FreezeAssetFrozen"
  | application => "ApplicationID"
  | onCompletion => "OnCompletion"
  | args => "ApplicationArgs"
  | accounts => "Accounts"
  | assets => "Assets"
  | apps => "Applications"
  | approval => "ApprovalProgram"
  | clearState => "ClearStateProgram"
  | globalUints => "GlobalNumUint"
  | globalByteSlices => "GlobalNumByteSlice"
  | localUints => "LocalNumUint"
  | localByteSlices => "LocalNumByteSlice"
  | extraPages => "ExtraProgramPages"
  | stateProofKey | createdAsset | encoding | createdApp | inner | log => ""

end Place

variable (p : InnerParams)

/-- The body, while the transaction is a payment. -/
def payment? : Option Payment :=
  match p.body with
  | .payment x => some x
  | _ => none

/-- The body, while the transaction is a key registration. -/
def keyRegistration? : Option KeyRegistration :=
  match p.body with
  | .keyRegistration x => some x
  | _ => none

/-- The body, while the transaction configures an asset. -/
def assetConfig? : Option AssetConfig :=
  match p.body with
  | .assetConfig x => some x
  | _ => none

/-- The body, while the transaction transfers an asset. -/
def assetTransfer? : Option AssetTransfer :=
  match p.body with
  | .assetTransfer x => some x
  | _ => none

/-- The body, while the transaction freezes an asset. -/
def assetFreeze? : Option AssetFreeze :=
  match p.body with
  | .assetFreeze x => some x
  | _ => none

/-- The body, while the transaction is an application call. -/
def call? : Option AppCall :=
  match p.body with
  | .call x => some x
  | _ => none

/-- The content of a place, if it is there. -/
def read : (place : Place) → Option place.Content
  | .sender => some p.sender
  | .fee => some p.fee
  | .note => some p.note
  | .rekeyTo => some p.rekeyTo
  | .receiver => p.payment?.map fun x => x.receiver
  | .amount => p.payment?.map fun x => x.amount
  | .closeRemainderTo => p.payment?.map fun x => x.closeRemainderTo
  | .voteKey => p.keyRegistration?.map fun x => x.voteKey
  | .selectionKey => p.keyRegistration?.map fun x => x.selectionKey
  | .stateProofKey => p.keyRegistration?.map fun x => x.stateProofKey
  | .voteFirst => p.keyRegistration?.map fun x => x.voteFirst
  | .voteLast => p.keyRegistration?.map fun x => x.voteLast
  | .voteKeyDilution => p.keyRegistration?.map fun x => x.voteKeyDilution
  | .nonParticipation => p.keyRegistration?.map fun x => x.nonParticipation
  | .configAsset => p.assetConfig?.map fun x => x.asset
  | .assetTotal => p.assetConfig?.map fun x => x.params.total
  | .assetDecimals => p.assetConfig?.map fun x => x.params.decimals
  | .assetDefaultFrozen => p.assetConfig?.map fun x => x.params.defaultFrozen
  | .assetUnitName => p.assetConfig?.map fun x => x.params.unitName
  | .assetName => p.assetConfig?.map fun x => x.params.name
  | .assetUrl => p.assetConfig?.map fun x => x.params.url
  | .assetMetadataHash => p.assetConfig?.map fun x => x.params.metadataHash
  | .assetManager => p.assetConfig?.map fun x => x.params.manager
  | .assetReserve => p.assetConfig?.map fun x => x.params.reserve
  | .assetFreeze => p.assetConfig?.map fun x => x.params.freeze
  | .assetClawback => p.assetConfig?.map fun x => x.params.clawback
  | .createdAsset => p.assetConfig?.map fun x => x.createdAsset
  | .transferAsset => p.assetTransfer?.map fun x => x.asset
  | .assetAmount => p.assetTransfer?.map fun x => x.amount
  | .assetSender => p.assetTransfer?.map fun x => x.sender
  | .assetReceiver => p.assetTransfer?.map fun x => x.receiver
  | .assetCloseTo => p.assetTransfer?.map fun x => x.closeTo
  | .freezeAsset => p.assetFreeze?.map fun x => x.asset
  | .freezeAccount => p.assetFreeze?.map fun x => x.account
  | .frozen => p.assetFreeze?.map fun x => x.frozen
  | .application => p.call?.map fun x => x.app
  | .onCompletion => p.call?.map fun x => x.onCompletion
  | .args => p.call?.map fun x => x.args
  | .accounts => p.call?.map fun x => x.accounts
  | .assets => p.call?.map fun x => x.assets
  | .apps => p.call?.map fun x => x.apps
  | .approval => p.call?.map fun x => x.program.approval
  | .clearState => p.call?.map fun x => x.program.clearState
  | .globalUints => p.call?.map fun x => x.program.globalSchema.uints
  | .globalByteSlices => p.call?.map fun x => x.program.globalSchema.byteSlices
  | .localUints => p.call?.map fun x => x.program.localSchema.uints
  | .localByteSlices => p.call?.map fun x => x.program.localSchema.byteSlices
  | .extraPages => p.call?.map fun x => x.program.extraPages
  | .encoding => p.call?.map fun x => x.encoding
  | .createdApp => p.call?.map fun x => x.createdApp
  | .inner => p.call?.map fun x => x.inner
  | .log => p.call?.map fun x => x.log

end InnerParams

namespace InnerField

/-- What an assignment does to which place. -/
structure Change where
  place : InnerParams.Place
  update : place.Content → place.Content

/-- The change that an assignment other than that of the kind stands for: a list grows by one
    at the end, and any other content is replaced. -/
def change? : InnerField → Option Change
  | kind _ => none
  | sender a => some ⟨.sender, fun _ => some a⟩
  | fee n => some ⟨.fee, fun _ => n⟩
  | note b => some ⟨.note, fun _ => b⟩
  | rekeyTo a => some ⟨.rekeyTo, fun _ => a⟩
  | receiver a => some ⟨.receiver, fun _ => a⟩
  | amount n => some ⟨.amount, fun _ => n⟩
  | closeRemainderTo a => some ⟨.closeRemainderTo, fun _ => a⟩
  | voteKey b => some ⟨.voteKey, fun _ => b⟩
  | selectionKey b => some ⟨.selectionKey, fun _ => b⟩
  | voteFirst n => some ⟨.voteFirst, fun _ => n⟩
  | voteLast n => some ⟨.voteLast, fun _ => n⟩
  | voteKeyDilution n => some ⟨.voteKeyDilution, fun _ => n⟩
  | nonParticipation b => some ⟨.nonParticipation, fun _ => b⟩
  | configAsset id => some ⟨.configAsset, fun _ => id⟩
  | assetTotal n => some ⟨.assetTotal, fun _ => n⟩
  | assetDecimals n => some ⟨.assetDecimals, fun _ => n⟩
  | assetDefaultFrozen b => some ⟨.assetDefaultFrozen, fun _ => b⟩
  | assetUnitName b => some ⟨.assetUnitName, fun _ => b⟩
  | assetName b => some ⟨.assetName, fun _ => b⟩
  | assetUrl b => some ⟨.assetUrl, fun _ => b⟩
  | assetMetadataHash h => some ⟨.assetMetadataHash, fun _ => h⟩
  | assetManager a => some ⟨.assetManager, fun _ => a⟩
  | assetReserve a => some ⟨.assetReserve, fun _ => a⟩
  | assetFreeze a => some ⟨.assetFreeze, fun _ => a⟩
  | assetClawback a => some ⟨.assetClawback, fun _ => a⟩
  | transferAsset id => some ⟨.transferAsset, fun _ => id⟩
  | assetAmount n => some ⟨.assetAmount, fun _ => n⟩
  | assetSender a => some ⟨.assetSender, fun _ => a⟩
  | assetReceiver a => some ⟨.assetReceiver, fun _ => a⟩
  | assetCloseTo a => some ⟨.assetCloseTo, fun _ => a⟩
  | freezeAsset id => some ⟨.freezeAsset, fun _ => id⟩
  | freezeAccount a => some ⟨.freezeAccount, fun _ => a⟩
  | frozen b => some ⟨.frozen, fun _ => b⟩
  | application id => some ⟨.application, fun _ => id⟩
  | onCompletion action => some ⟨.onCompletion, fun _ => action⟩
  | arg b => some ⟨.args, fun (bs : List Bytes) => bs ++ [b]⟩
  | account a => some ⟨.accounts, fun (as : List Address) => as ++ [a]⟩
  | asset id => some ⟨.assets, fun (ids : List UInt64) => ids ++ [id]⟩
  | app id => some ⟨.apps, fun (ids : List UInt64) => ids ++ [id]⟩
  | approval b => some ⟨.approval, fun _ => b⟩
  | clearState b => some ⟨.clearState, fun _ => b⟩
  | globalUints n => some ⟨.globalUints, fun _ => n⟩
  | globalByteSlices n => some ⟨.globalByteSlices, fun _ => n⟩
  | localUints n => some ⟨.localUints, fun _ => n⟩
  | localByteSlices n => some ⟨.localByteSlices, fun _ => n⟩
  | extraPages n => some ⟨.extraPages, fun _ => n⟩

variable {f g : InnerField} {change : Change}

/-- The name of a field tells its place. -/
theorem name_eq (h : f.change? = some change) : f.name = change.place.field := by
  cases f <;> cases h <;> rfl

/-- Only an assignment of the kind has no place of its own. -/
theorem change?_eq_none_iff : f.change? = none ↔ ∃ k, f = kind k := by
  constructor
  · intro h
    cases f with
    | kind k => exact ⟨k, rfl⟩
    | _ => cases h
  · rintro ⟨k, rfl⟩
    rfl

theorem exists_change (h : ∀ k, f ≠ kind k) : ∃ change, f.change? = some change := by
  cases hc : f.change? with
  | some change => exact ⟨change, rfl⟩
  | none =>
      obtain ⟨k, hk⟩ := change?_eq_none_iff.mp hc
      exact absurd hk (h k)

end InnerField

namespace InnerParams

variable {p q : InnerParams} {f g : InnerField} {change : InnerField.Change}

/-! ## The places tell everything -/

/-- **THE PLACES TELL EVERYTHING** about the fields of an inner transaction. -/
theorem eq_of_read (h : ∀ place, p.read place = q.read place) : p = q := by
  obtain ⟨sender, fee, note, rekeyTo, body⟩ := p
  obtain ⟨sender', fee', note', rekeyTo', body'⟩ := q
  -- the places of the header are there for every kind
  obtain rfl : sender = sender' := Option.some.inj (h .sender)
  obtain rfl : fee = fee' := Option.some.inj (h .fee)
  obtain rfl : note = note' := Option.some.inj (h .note)
  obtain rfl : rekeyTo = rekeyTo' := Option.some.inj (h .rekeyTo)
  congr 1
  -- a body of another kind lacks the places of the first one
  cases body with
  | payment x =>
      cases body' with
      | payment y =>
          obtain ⟨_, _, _⟩ := x
          obtain ⟨_, _, _⟩ := y
          cases h .receiver
          cases h .amount
          cases h .closeRemainderTo
          rfl
      | _ => cases h .receiver
  | keyRegistration x =>
      cases body' with
      | keyRegistration y =>
          obtain ⟨_, _, _, _, _, _, _⟩ := x
          obtain ⟨_, _, _, _, _, _, _⟩ := y
          cases h .voteKey
          cases h .selectionKey
          cases h .stateProofKey
          cases h .voteFirst
          cases h .voteLast
          cases h .voteKeyDilution
          cases h .nonParticipation
          rfl
      | _ => cases h .voteKey
  | assetConfig x =>
      cases body' with
      | assetConfig y =>
          obtain ⟨_, ⟨_, _, _, _, _, _, _, _, _, _, _⟩, _⟩ := x
          obtain ⟨_, ⟨_, _, _, _, _, _, _, _, _, _, _⟩, _⟩ := y
          cases h .configAsset
          cases h .assetTotal
          cases h .assetDecimals
          cases h .assetDefaultFrozen
          cases h .assetUnitName
          cases h .assetName
          cases h .assetUrl
          cases h .assetMetadataHash
          cases h .assetManager
          cases h .assetReserve
          cases h .assetFreeze
          cases h .assetClawback
          cases h .createdAsset
          rfl
      | _ => cases h .configAsset
  | assetTransfer x =>
      cases body' with
      | assetTransfer y =>
          obtain ⟨_, _, _, _, _⟩ := x
          obtain ⟨_, _, _, _, _⟩ := y
          cases h .transferAsset
          cases h .assetAmount
          cases h .assetSender
          cases h .assetReceiver
          cases h .assetCloseTo
          rfl
      | _ => cases h .transferAsset
  | assetFreeze x =>
      cases body' with
      | assetFreeze y =>
          obtain ⟨_, _, _⟩ := x
          obtain ⟨_, _, _⟩ := y
          cases h .freezeAsset
          cases h .freezeAccount
          cases h .frozen
          rfl
      | _ => cases h .freezeAsset
  | call x =>
      cases body' with
      | call y =>
          obtain ⟨_, _, _, _, _, _, ⟨_, _, ⟨_, _⟩, ⟨_, _⟩, _⟩, _, _, _, _⟩ := x
          obtain ⟨_, _, _, _, _, _, ⟨_, _, ⟨_, _⟩, ⟨_, _⟩, _⟩, _, _, _, _⟩ := y
          cases h .application
          cases h .onCompletion
          cases h .args
          cases h .accounts
          cases h .assets
          cases h .apps
          cases h .approval
          cases h .clearState
          cases h .globalUints
          cases h .globalByteSlices
          cases h .localUints
          cases h .localByteSlices
          cases h .extraPages
          cases h .encoding
          cases h .createdApp
          cases h .inner
          cases h .log
          rfl
      | _ => cases h .application

/-- **THE KIND DECIDES** which places are there. -/
theorem isSome_read (place : Place) :
    (p.read place).isSome = place.kind?.all fun k => k = p.kind := by
  obtain ⟨sender, fee, note, rekeyTo, body⟩ := p
  cases body <;> cases place <;> rfl

/-! ## One assignment -/

/-- How an assignment with a place goes: it is accepted and changes that place and no other, or
    the place is not there and it is refused. -/
inductive Goes (p : InnerParams) (f : InnerField) (change : InnerField.Change) :
    Result InnerParams → Prop where
  | accepted {q : InnerParams} {content : change.place.Content}
      (there : p.read change.place = some content)
      (changed : q.read change.place = some (change.update content))
      (others : ∀ other ≠ change.place, q.read other = p.read other) : Goes p f change (.ok q)
  | refused (missing : p.read change.place = none) :
      Goes p f change (.error (.invalidField f.name p.kind))

/-- **AN ASSIGNMENT CHANGES ITS PLACE** and no other, if the place is there. -/
theorem goes_assign (h : f.change? = some change) : Goes p f change (p.assign f) := by
  obtain ⟨sender, fee, note, rekeyTo, body⟩ := p
  cases f with
  | kind k => cases h
  -- the header takes them whatever the kind is
  | sender _ | fee _ | note _ | rekeyTo _ =>
      cases h
      refine .accepted rfl rfl ?_
      intro other hother
      cases other <;> first | rfl | exact absurd rfl hother
  -- each of the others asks for its own kind and is refused by all others
  | receiver _ | amount _ | closeRemainderTo _ =>
      cases h
      cases body with
      | payment x =>
          refine .accepted rfl rfl ?_
          intro other hother
          cases other <;> first | rfl | exact absurd rfl hother
      | _ => exact .refused rfl
  | voteKey _ | selectionKey _ | voteFirst _ | voteLast _ | voteKeyDilution _
  | nonParticipation _ =>
      cases h
      cases body with
      | keyRegistration x =>
          refine .accepted rfl rfl ?_
          intro other hother
          cases other <;> first | rfl | exact absurd rfl hother
      | _ => exact .refused rfl
  | configAsset _ | assetTotal _ | assetDecimals _ | assetDefaultFrozen _ | assetUnitName _
  | assetName _ | assetUrl _ | assetMetadataHash _ | assetManager _ | assetReserve _
  | assetFreeze _ | assetClawback _ =>
      cases h
      cases body with
      | assetConfig x =>
          refine .accepted rfl rfl ?_
          intro other hother
          cases other <;> first | rfl | exact absurd rfl hother
      | _ => exact .refused rfl
  | transferAsset _ | assetAmount _ | assetSender _ | assetReceiver _ | assetCloseTo _ =>
      cases h
      cases body with
      | assetTransfer x =>
          refine .accepted rfl rfl ?_
          intro other hother
          cases other <;> first | rfl | exact absurd rfl hother
      | _ => exact .refused rfl
  | freezeAsset _ | freezeAccount _ | frozen _ =>
      cases h
      cases body with
      | assetFreeze x =>
          refine .accepted rfl rfl ?_
          intro other hother
          cases other <;> first | rfl | exact absurd rfl hother
      | _ => exact .refused rfl
  | application _ | onCompletion _ | arg _ | account _ | asset _ | app _ | approval _
  | clearState _ | globalUints _ | globalByteSlices _ | localUints _ | localByteSlices _
  | extraPages _ =>
      cases h
      cases body with
      | call x =>
          refine .accepted rfl rfl ?_
          intro other hother
          cases other <;> first | rfl | exact absurd rfl hother
      | _ => exact .refused rfl

/-- How an assignment ends. -/
def outcome (p : InnerParams) (f : InnerField) : Result Unit := (p.assign f).map fun _ => ()

/-- The fields to go on with, whether or not the assignment is accepted. -/
def after (p : InnerParams) (f : InnerField) : InnerParams :=
  match p.assign f with
  | .ok q => q
  | .error _ => p

theorem outcome_eq_error {e : Fault}
    (h : p.outcome f = .error e) : p.assign f = .error e := by
  rw [outcome] at h
  cases hassign : p.assign f with
  | ok q =>
      rw [hassign] at h
      cases h
  | error e' =>
      rw [hassign] at h
      cases h
      rfl

theorem outcome_eq_ok_iff : p.outcome f = .ok () ↔ ∃ q, p.assign f = .ok q := by
  rw [outcome]
  cases p.assign f with
  | ok q => simp [Except.map]
  | error e => simp [Except.map]

theorem after_of_ok (h : p.assign f = .ok q) : p.after f = q := by
  rw [after, h]

theorem after_of_error {e : Fault} (h : p.assign f = .error e) : p.after f = p := by
  rw [after, h]

/-- Only the place decides: an assignment is accepted if its place is there. -/
theorem assign_isOk_iff (h : f.change? = some change) :
    (∃ q, p.assign f = .ok q) ↔ ∃ content, p.read change.place = some content := by
  cases hgoes : p.assign f with
  | ok q =>
      cases hgoes ▸ goes_assign h with
      | accepted there => exact ⟨fun _ => ⟨_, there⟩, fun _ => ⟨q, rfl⟩⟩
  | error e =>
      cases hgoes ▸ goes_assign h with
      | refused missing => simp [missing]

/-- The refusal names the field and the kind under composition. -/
theorem assign_error {e : Fault} (h : p.assign f = .error e) :
    e = .invalidField f.name p.kind := by
  cases hc : f.change? with
  | none =>
      obtain ⟨k, rfl⟩ := InnerField.change?_eq_none_iff.mp hc
      cases h
  | some change =>
      cases h ▸ goes_assign hc with
      | refused => rfl

/-- The place of an assignment behind it.  A refused one has no content to change. -/
theorem read_after (h : f.change? = some change) :
    (p.after f).read change.place = (p.read change.place).map change.update := by
  cases hgoes : p.assign f with
  | ok q =>
      cases hgoes ▸ goes_assign h with
      | accepted there changed => rw [after_of_ok hgoes, changed, there, Option.map_some]
  | error e =>
      cases hgoes ▸ goes_assign h with
      | refused missing => rw [after_of_error hgoes, missing, Option.map_none]

/-- Every other place behind an assignment. -/
theorem read_after_of_ne (h : f.change? = some change) {other : Place}
    (hother : other ≠ change.place) : (p.after f).read other = p.read other := by
  cases hgoes : p.assign f with
  | ok q =>
      cases hgoes ▸ goes_assign h with
      | accepted _ _ others => rw [after_of_ok hgoes, others other hother]
  | error e => rw [after_of_error hgoes]

theorem isSome_read_after (h : f.change? = some change) (place : Place) :
    ((p.after f).read place).isSome = (p.read place).isSome := by
  by_cases hplace : place = change.place
  · rw [hplace, read_after h, Option.isSome_map]
  · rw [read_after_of_ne h hplace]

/-- An assignment with a place leaves the kind. -/
theorem kind_after (h : f.change? = some change) : (p.after f).kind = p.kind := by
  have hthere := isSome_read_after (p := p) h (.ofKind p.kind)
  rw [isSome_read, isSome_read, Place.kind?_ofKind] at hthere
  simpa [eq_comm] using hthere

/-- How an assignment ends depends on the kind only. -/
theorem outcome_eq (h : f.change? = some change) :
    p.outcome f =
      if change.place.kind?.all fun k => k = p.kind then .ok ()
      else .error (.invalidField f.name p.kind) := by
  rw [← isSome_read, outcome]
  cases hgoes : p.assign f with
  | ok q =>
      cases hgoes ▸ goes_assign h with
      | accepted there => rw [there]; rfl
  | error e =>
      cases hgoes ▸ goes_assign h with
      | refused missing => rw [missing]; rfl

/-! ## Several assignments -/

section Several

variable {change' : InnerField.Change}

/-- An assignment ends as it would have before any other one with a place. -/
theorem outcome_after (hf : f.change? = some change) (hg : g.change? = some change') :
    (p.after g).outcome f = p.outcome f := by
  rw [outcome_eq hf, outcome_eq hf, kind_after hg]

/-- **TWO ASSIGNMENTS TO DIFFERENT PLACES** may change places. -/
theorem after_comm (hf : f.change? = some change) (hg : g.change? = some change')
    (hplaces : change.place ≠ change'.place) :
    (p.after f).after g = (p.after g).after f := by
  refine eq_of_read fun place => ?_
  by_cases hatf : place = change.place
  · have hatg : place ≠ change'.place := hatf ▸ hplaces
    subst hatf
    rw [read_after_of_ne hg hatg, read_after hf, read_after hf, read_after_of_ne hg hatg]
  · by_cases hatg : place = change'.place
    · subst hatg
      rw [read_after_of_ne hf hatf, read_after hg, read_after hg, read_after_of_ne hf hatf]
    · rw [read_after_of_ne hg hatg, read_after_of_ne hf hatf, read_after_of_ne hf hatf,
        read_after_of_ne hg hatg]

theorem after_comm_of_name (hf : ∀ k, f ≠ .kind k) (hg : ∀ k, g ≠ .kind k)
    (hnames : f.name ≠ g.name) : (p.after f).after g = (p.after g).after f := by
  obtain ⟨change, hchange⟩ := InnerField.exists_change hf
  obtain ⟨change', hchange'⟩ := InnerField.exists_change hg
  refine after_comm hchange hchange' fun hplaces => hnames ?_
  rw [InnerField.name_eq hchange, InnerField.name_eq hchange', hplaces]

end Several

/-! ## The kind -/

theorem after_kind (k : TransactionKind) :
    p.after (.kind k) = if k = p.kind then p else { p with body := .empty k } := rfl

theorem kind_after_kind (k : TransactionKind) : (p.after (.kind k)).kind = k := by
  rw [after_kind]
  split
  · next h => exact h.symm
  · cases k <;> rfl

/-- **ANOTHER KIND** starts with blank places of its own and keeps those in front of the body. -/
theorem read_after_kind {k : TransactionKind} (h : k ≠ p.kind) (place : Place) :
    (p.after (.kind k)).read place =
      match place.kind? with
      | none => p.read place
      | some owner => if owner = k then some place.blank else none := by
  rw [after_kind, if_neg h]
  cases k <;> cases place <;> rfl

end InnerParams

/-! ## In a session -/

section Sessions

variable {ω : Type} (x : Session ω) (g : Group) (earlier : List InnerParams) {p : InnerParams}
  {f : InnerField}

/-- The group with an inner transaction under composition behind others. -/
def Group.composed (p : InnerParams) : Group := { g with composing := some (earlier ++ [p]) }

theorem Group.assignInner_composed :
    (g.composed earlier p).assignInner f = (p.assign f).map (g.composed earlier) := by
  rw [assignInner, modifyInner, composed]
  dsimp only
  rw [List.getLast?_concat, List.dropLast_concat]
  dsimp only
  cases p.assign f <;> rfl

/-- The session with that group open. -/
def Session.composed (p : InnerParams) : Session ω :=
  x.withTimeline { x.timeline with current := some (g.composed earlier p) }

/-- **A SESSION TAKES AN ASSIGNMENT** to the newest inner transaction, and is the same as before
    when that is refused. -/
theorem Run.run_assignInner :
    (Run.assignInner f).run (x.composed g earlier p) =
      (p.outcome f, x.composed g earlier (p.after f)) := by
  rw [assignInner, onGroup, run_onTimeline, Timeline.modifyGroup]
  have hgroup : (x.composed g earlier p).timeline.group = .ok (g.composed earlier p) := rfl
  rw [hgroup, ok_bind, Group.assignInner_composed, InnerParams.outcome, InnerParams.after]
  cases p.assign f <;> rfl

end Sessions

/-! ## The result -/

namespace InnerParams

/-- **THE FIELDS OF AN INNER TRANSACTION ARE INDEPENDENT.**  Whatever was assigned so far:

    * two assignments to different fields, none of them that of the kind, make the same of the
      fields in both orders, and each ends in the same way in both;
    * a refused assignment changes nothing, and the refusal names its field;
    * every assignment but that of the kind has a place, named like its field; it is accepted if
      the place is there, and then changes the content of that place and no other one;
    * the assignment of the kind is always accepted; it changes nothing if that is the kind, and
      else keeps the places in front of the body and leaves all of those of the body blank;
    * a session under composition goes exactly these steps. -/
theorem assignments_independent (p : InnerParams) :
    (∀ f g : InnerField, (∀ k, f ≠ .kind k) → (∀ k, g ≠ .kind k) → f.name ≠ g.name →
      (p.after f).after g = (p.after g).after f ∧
      (p.after g).outcome f = p.outcome f ∧ (p.after f).outcome g = p.outcome g) ∧
    (∀ f e, p.outcome f = .error e → p.after f = p ∧ e = .invalidField f.name p.kind) ∧
    (∀ f : InnerField, (∀ k, f ≠ .kind k) →
      ∃ change, f.change? = some change ∧ change.place.field = f.name ∧
        (p.outcome f = .ok () ↔ ∃ content, p.read change.place = some content) ∧
        (p.after f).read change.place = (p.read change.place).map change.update ∧
        ∀ other ≠ change.place, (p.after f).read other = p.read other) ∧
    (∀ k, p.outcome (.kind k) = .ok () ∧ (p.after (.kind k)).kind = k ∧
      (k = p.kind → p.after (.kind k) = p) ∧
      (k ≠ p.kind → ∀ place, (p.after (.kind k)).read place =
        match place.kind? with
        | none => p.read place
        | some owner => if owner = k then some place.blank else none)) ∧
    (∀ (ω : Type) (x : Session ω) (g : Group) (earlier : List InnerParams) (f : InnerField),
      (Run.assignInner f).run (x.composed g earlier p) =
        (p.outcome f, x.composed g earlier (p.after f))) := by
  refine ⟨fun f g hf hg hnames => ?_, fun f e he => ?_, fun f hf => ?_, fun k => ?_,
    fun ω x g earlier f => Run.run_assignInner x g earlier⟩
  · obtain ⟨change, hchange⟩ := InnerField.exists_change hf
    obtain ⟨change', hchange'⟩ := InnerField.exists_change hg
    exact ⟨after_comm_of_name hf hg hnames, outcome_after hchange hchange',
      outcome_after hchange' hchange⟩
  · have hassign := outcome_eq_error he
    exact ⟨after_of_error hassign, assign_error hassign⟩
  · obtain ⟨change, hchange⟩ := InnerField.exists_change hf
    exact ⟨change, hchange, (InnerField.name_eq hchange).symm,
      outcome_eq_ok_iff.trans (assign_isOk_iff hchange), read_after hchange,
      fun other hother => read_after_of_ne hchange hother⟩
  · refine ⟨rfl, kind_after_kind k, fun hk => ?_, read_after_kind⟩
    rw [after_kind, if_pos hk]

/-- Two of the counters of an application under creation, a field of a payment beside them, and
    arguments in their order. -/
theorem counters_and_args_of_call :
    let p := appCall 0 .noOp [[1]]
    (p.after (.globalUints 3)).after (.localUints 5) =
        (p.after (.localUints 5)).after (.globalUints 3) ∧
      p.after (.amount 7) = p ∧
      (p.after (.arg [2])).read .args = some [[1], [2]] ∧
      (p.after (.arg [2])).read .accounts = p.read .accounts := by
  intro p
  obtain ⟨two, refused, accepted, -⟩ := assignments_independent p
  obtain ⟨change, hchange, -, -, hread, hothers⟩ := accepted (.arg [2]) (by simp)
  cases hchange
  exact ⟨(two (.globalUints 3) (.localUints 5) (by simp) (by simp) (by decide)).1,
    (refused (.amount 7) _ rfl).1, hread, hothers .accounts (by decide)⟩

end InnerParams

end AvmSandbox
