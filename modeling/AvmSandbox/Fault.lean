import AvmSandbox.Address
import AvmSandbox.Limits
import AvmSandbox.Transaction.Kind

/-! # Faults — why an operation fails

    One type for every cause of failure.  A fault carries what its report
    names, `Fault.message` is the only place that words a report, `Fault.name`
    names causes of a kind, and `Fault.severity` sorts them by who is to blame:

    * `coding`: a value does not fit the type it was given for;
    * `protocol`: the virtual machine itself would refuse;
    * `internal`: the sandbox was set up or driven wrongly;
    * `assertion`: a check of the contract under test failed. -/

namespace AvmSandbox

/-- Who is to blame for a failure. -/
inductive Severity where
  | coding
  | protocol
  | internal
  | assertion
  deriving DecidableEq, Repr

namespace Severity

def name : Severity → String
  | coding => "Coding"
  | protocol => "Protocol"
  | internal => "Internal"
  | assertion => "Assertion"

end Severity

/-! ## Causes in detail -/

/-- Why the text of a type is refused, at the position where reading stopped. -/
inductive TypeTextError where
  | trailing
  | arrayLength
  | closingBracket
  | separator
  | typeName
  | ufixedForm
  | ufixedWidth
  | ufixedPrecision
  | uintWidth
  deriving DecidableEq, Repr

/-- Why a type is refused. -/
inductive DescriptorError where
  /-- The bit width is no multiple of 8 or too large. -/
  | width (bits : Nat)
  /-- Too few or too many decimal places. -/
  | precision (places : Nat)
  /-- No type has this name. -/
  | unknown (word : String)
  /-- The text breaks off the grammar. -/
  | text (error : TypeTextError) (position : Nat) (input : String)
  deriving DecidableEq, Repr

/-- Why a method signature is refused. -/
inductive SignatureError where
  | noArguments
  | noName
  | unbalanced
  | noReturn
  deriving DecidableEq, Repr

/-- Why bytes are no encoding of a type. -/
inductive Malformation where
  | tooShort
  | noLength
  | lengthMismatch (stated found : Nat)
  | wrongSize (expected got : Nat)
  | offset (start : Nat)
  | text
  | unbounded
  | hex (error : HexError)
  deriving DecidableEq, Repr

/-- Why a resource reference has no meaning. -/
inductive ReferenceError where
  | indexTooLarge (index : Nat)
  | noArrays (kind : TransactionKind)
  | account (index : Nat)
  | asset (index : Nat)
  | application (index : Nat)
  deriving DecidableEq, Repr

/-- A cause of failure. -/
inductive Fault where
  -- values and encodings
  | typeMismatch (expected got : String)
  | arityMismatch (expected got : Nat)
  | overflow (max : Nat)
  | tooLong (length max : Nat)
  | indexOutOfBounds (index length : Nat)
  | noReturnMarker
  | malformed (subject : String) (cause : Malformation)
  | invalidType (cause : DescriptorError)
  | invalidSignature (cause : SignatureError) (text : String)
  | unresolvedReference (cause : ReferenceError)
  | lengthOverflow
  -- ledger records
  | unknownAccount (address : Address)
  | unknownApplication (id : UInt64)
  | unknownAsset (id : UInt64)
  | unknownBlock (round : UInt64)
  | idsExhausted
  | pagesExhausted
  | stateNotSet (key : Bytes)
  | notOptedIn (application : UInt64) (account : Address)
  | notOptedInAsset (asset : UInt64) (account : Address)
  | stackTypeMismatch (expected got : String)
  -- boxes
  | boxNotCreated (key : Bytes)
  | boxSizeTooSmall (min : Nat)
  | boxTooLarge (size : Nat)
  | boxSizeRequired (type : String)
  | boxSizeMismatch (key : Bytes) (existing requested : Nat)
  | boxWrongSize
  | boxOutOfBounds (start finish size : Nat)
  -- transactions
  | unknownTransactionKind (name : String)
  | unknownOnCompletion (name : String)
  | groupTooLarge (size : Nat)
  | tooManyLogs
  | logsTooLarge (bytes : Nat)
  | logAfterReturn
  | scratchSlot (slot : Nat)
  | invalidField (field : String) (kind : TransactionKind)
  | wrongTransactionKind (expected got : TransactionKind)
  | notEndingInCall
  | emptyGroup
  | activeIndexOutOfRange (index size : Nat)
  | noTransactionAt (index : Nat)
  | logOutsideCall
  -- inner transactions
  | alreadyComposing
  | composingOutsideCall
  | composingInClearState
  | nextWithoutBegin
  | fieldWithoutBegin
  | submitWithoutBegin
  | noInnerGroupAt (index : Nat)
  | noInnerGroup
  | emptyInnerGroup
  -- open and finished groups
  | groupAlreadyOpen
  | nothingToFinalize
  | noOpenGroup
  | noFinishedGroup
  -- methods
  | invalidDescription
  | unregistered (key : String)
  | missingTransactions (method : String) (expected got : Nat)
  | duringCreation (method : String)
  | onlyDuringCreation (method : String)
  | onCompletionNotAllowed (action : OnCompletion) (method : String)
  | wrongSelector (method : String)
  | assertion (text : String)
  -- settings
  | settingsUnreadable
  | settingsMissing
  | initialAppIdZero
  | initialAssetIdZero
  | unknownLogFormat (format : String)
  deriving DecidableEq

/-! ## Wording -/

namespace TypeTextError

/-- What the reader of a type text expected or could not use. -/
def message : TypeTextError → String
  | trailing => "trailing characters"
  | arrayLength => "invalid array length"
  | closingBracket => "expected ']'"
  | separator => "expected ',' or ')'"
  | typeName => "expected a type name"
  | ufixedForm => "expected ufixed<N>x<M>"
  | ufixedWidth => "invalid ufixed width"
  | ufixedPrecision => "invalid ufixed precision"
  | uintWidth => "invalid uint width"

end TypeTextError

namespace DescriptorError

/-- The wording of a refused type. -/
def message : DescriptorError → String
  | width bits => s!"bit width must be a multiple of 8 in 8..={Limits.uintBits}, got {bits}"
  | precision places => s!"ufixed precision must be in 1..={Limits.precision}, got {places}"
  | unknown word => s!"unknown type '{word}'"
  | text error position input => s!"{error.message} at position {position} in '{input}'"

end DescriptorError

namespace SignatureError

/-- The wording of a refused signature. -/
def message : SignatureError → String
  | noArguments => "missing '('"
  | noName => "missing method name"
  | unbalanced => "unbalanced parentheses"
  | noReturn => "missing return type"

end SignatureError

/-- A character code below 256 between single quotes, with the codes that do not print
    written out. -/
def quotedCode (code : UInt8) : String :=
  let body :=
    if code = 0 then "\\0"
    else if code = 9 then "\\t"
    else if code = 10 then "\\n"
    else if code = 13 then "\\r"
    else if code = 39 then "\\'"
    else if code = 92 then "\\\\"
    else if code < 32 ∨ (127 ≤ code ∧ code ≤ 160) ∨ code = 173 then
      "\\u\x7b" ++ String.ofList (Nat.toDigits 16 code.toNat) ++ "\x7d"
    else String.singleton (Char.ofNat code.toNat)
  "'" ++ body ++ "'"

namespace HexError

/-- The wording of wrong hexadecimal text. -/
def message : HexError → String
  | oddLength => "Odd number of digits"
  | digit byte position => s!"Invalid character {quotedCode byte} at position {position}"

end HexError

namespace Malformation

/-- The wording of a malformed encoding. -/
def message : Malformation → String
  | tooShort => "buffer too short"
  | noLength => "missing length prefix"
  | lengthMismatch stated found => s!"length prefix says {stated} bytes, found {found}"
  | wrongSize expected got => s!"expected {expected} bytes, got {got}"
  | offset start => s!"invalid offset {start}"
  | text => "invalid utf-8"
  | unbounded => "expected a static type"
  | hex error => error.message

end Malformation

namespace ReferenceError

/-- The wording of a reference without meaning. -/
def message : ReferenceError → String
  | indexTooLarge index => s!"reference index {index} exceeds {Limits.oneByte}"
  | noArrays kind => s!"{kind.name} transactions carry no resource references"
  | account index => s!"account index {index}"
  | asset index => s!"asset index {index}"
  | application index => s!"application index {index}"

end ReferenceError

/-- Whether a character is a control code. -/
def isControl (c : Char) : Bool :=
  c.toNat < 32 || (127 ≤ c.toNat && c.toNat < 160)

/-- A key as text when it prints, else in hexadecimal. -/
def keyText (key : Bytes) : String :=
  match key.text? with
  | some s => if s.toList.any isControl then "0x" ++ key.hex else s
  | none => "0x" ++ key.hex

namespace Fault

/-- The report of a failure. -/
def message : Fault → String
  | typeMismatch expected got => s!"type mismatch: expected {expected}, got {got}"
  | arityMismatch expected got => s!"arity mismatch: expected {expected} values, got {got}"
  | overflow max => s!"expected value <= {max}"
  | tooLong length max => s!"byte length {length} exceeds maximum of {max}"
  | indexOutOfBounds index length => s!"index {index} out of bounds for length {length}"
  | noReturnMarker => "ABI return prefix not found"
  | malformed subject cause => s!"malformed {subject} encoding: {cause.message}"
  | invalidType cause => s!"invalid type descriptor: {cause.message}"
  | invalidSignature cause text => s!"invalid method signature: {cause.message} in '{text}'"
  | unresolvedReference cause => s!"unresolved resource reference: {cause.message}"
  | lengthOverflow => "sum of lengths beyond 64 bits"
  | unknownAccount address =>
      s!"Unknown account {address.hex}, ensure it has been created in the test context"
  | unknownApplication id =>
      s!"Unknown application {id}, ensure it has been created in the test context"
  | unknownAsset id => s!"Unknown asset {id}, ensure it has been created in the test context"
  | unknownBlock round => s!"Unknown block for round {round}"
  | idsExhausted => "no further ids"
  | pagesExhausted => "sum of extra pages beyond 64 bits"
  | stateNotSet key => s!"value is not set for key {keyText key}"
  | notOptedIn application account =>
      s!"account {account.hex} is not opted in to application {application}"
  | notOptedInAsset asset account => s!"account {account.hex} is not opted in to asset {asset}"
  | stackTypeMismatch expected got => s!"expected {expected} value, got {got}"
  | boxNotCreated key => s!"Box has not been created: {keyText key}"
  | boxSizeTooSmall min => s!"Box size cannot be less than {min}"
  | boxTooLarge size => s!"Box size {size} exceeds maximum of {Limits.box}"
  | boxSizeRequired type => s!"Box size must be specified for dynamically sized type {type}"
  | boxSizeMismatch key existing requested =>
      s!"box {keyText key} already exists with size {existing}, requested {requested}"
  | boxWrongSize => "attempt to box_put wrong size"
  | boxOutOfBounds start finish size =>
      s!"byte range {start}..{finish} out of bounds for box of size {size}"
  | unknownTransactionKind name => s!"unknown transaction type '{name}'"
  | unknownOnCompletion name => s!"unknown on-completion '{name}'"
  | groupTooLarge size =>
      s!"transaction group can have at most {Limits.group} transactions, got {size}"
  | tooManyLogs => s!"too many log calls in program, up to {Limits.logEntries} is allowed"
  | logsTooLarge bytes => s!"program logs too large, {bytes} bytes > {Limits.logBytes} bytes limit"
  | logAfterReturn => "cannot add logs after a return value has been set"
  | scratchSlot slot => s!"invalid scratch slot {slot}, must be below {Limits.scratchSlots}"
  | invalidField field kind => s!"{field} is not a valid field for {kind.name} transactions"
  | wrongTransactionKind expected got =>
      s!"expected {expected.name} transaction, got {got.name}"
  | notEndingInCall => "deferred call must end with an application call transaction"
  | emptyGroup => "transaction group is empty"
  | activeIndexOutOfRange index size =>
      s!"active index {index} out of range for group of {size}"
  | noTransactionAt index => s!"no transaction at group index {index}"
  | logOutsideCall => "logs can only be added to application call transactions"
  | alreadyComposing => "itxn begin: an inner transaction group is already being composed"
  | composingOutsideCall =>
      "itxn begin: inner transactions can only be issued by application calls"
  | composingInClearState =>
      "itxn begin: inner transactions are not allowed in clear state programs"
  | nextWithoutBegin => "itxn next without itxn begin"
  | fieldWithoutBegin => "itxn field without itxn begin"
  | submitWithoutBegin => "itxn submit without itxn begin"
  | noInnerGroupAt index => s!"no inner transaction group at index {index}"
  | noInnerGroup => "no inner transaction group has been submitted"
  | emptyInnerGroup => "inner transaction group is empty"
  | groupAlreadyOpen =>
      "a transaction group is already active, finalize it before creating another"
  | nothingToFinalize => "no active transaction group to finalize"
  | noOpenGroup => "no active transaction group"
  | noFinishedGroup => "no transaction group has been finalized"
  | invalidDescription => "invalid ARC-4 contract description"
  | unregistered key => s!"no contract metadata registered for '{key}'"
  | missingTransactions method expected got =>
      s!"method {method} expects {expected} transaction arguments, group has {got} before the call"
  | duringCreation method => s!"method {method} can not be called during application creation"
  | onlyDuringCreation method =>
      s!"method {method} can only be called during application creation"
  | onCompletionNotAllowed action method =>
      s!"on completion action {action.name} is not allowed for method {method}"
  | wrongSelector method =>
      s!"application call does not carry the selector of method {method}"
  | assertion text => text
  | settingsUnreadable => "Configuration error: Parse error"
  | settingsMissing => "Configuration error: Config not found"
  | initialAppIdZero =>
      "Configuration error: Invalid config: initial_app_id must be greater than 0"
  | initialAssetIdZero =>
      "Configuration error: Invalid config: initial_asset_id must be greater than 0"
  | unknownLogFormat format =>
      s!"Configuration error: Invalid config: Unknown log format '{format}', expected text or json"

/-- Who is to blame for a failure. -/
def severity : Fault → Severity
  | typeMismatch .. | arityMismatch .. | invalidType .. | invalidSignature ..
  | stackTypeMismatch .. | boxSizeRequired .. | wrongTransactionKind .. => .coding
  | overflow .. | tooLong .. | indexOutOfBounds .. | noReturnMarker | malformed ..
  | stateNotSet .. | notOptedIn .. | notOptedInAsset .. | boxNotCreated ..
  | boxSizeTooSmall .. | boxTooLarge .. | boxSizeMismatch .. | boxWrongSize
  | boxOutOfBounds .. | groupTooLarge .. | tooManyLogs | logsTooLarge .. | scratchSlot ..
  | invalidField .. => .protocol
  | duringCreation .. | onlyDuringCreation .. | onCompletionNotAllowed .. | wrongSelector ..
  | assertion .. => .assertion
  | _ => .internal

/-- The name under which causes of a kind are reported.  Causes without a name of their own
    are reported by their severity. -/
def name (fault : Fault) : String :=
  match fault with
  | typeMismatch .. => "TypeMismatch"
  | arityMismatch .. => "ArityMismatch"
  | overflow .. => "Overflow"
  | tooLong .. => "MaxLengthExceeded"
  | indexOutOfBounds .. => "IndexOutOfBounds"
  | noReturnMarker => "ReturnPrefixNotFound"
  | malformed .. => "Malformed"
  | invalidType .. => "InvalidType"
  | invalidSignature .. => "InvalidSignature"
  | unresolvedReference .. => "UnresolvedReference"
  | unknownAccount .. => "UnknownAccount"
  | unknownApplication .. => "UnknownApplication"
  | unknownAsset .. => "UnknownAsset"
  | unknownBlock .. => "UnknownBlock"
  | stateNotSet .. => "StateNotSet"
  | notOptedIn .. => "NotOptedIn"
  | notOptedInAsset .. => "NotOptedInAsset"
  | stackTypeMismatch .. => "StackTypeMismatch"
  | boxNotCreated .. => "BoxNotCreated"
  | boxSizeTooSmall .. => "BoxSizeTooSmall"
  | boxTooLarge .. => "BoxTooLarge"
  | boxSizeRequired .. => "BoxSizeRequired"
  | boxSizeMismatch .. => "BoxSizeMismatch"
  | boxWrongSize => "BoxWrongSize"
  | boxOutOfBounds .. => "BoxOutOfBounds"
  | groupTooLarge .. => "GroupTooLarge"
  | tooManyLogs => "TooManyLogs"
  | logsTooLarge .. => "LogsTooLarge"
  | scratchSlot .. => "ScratchSlot"
  | invalidField .. => "InvalidField"
  | wrongTransactionKind .. => "WrongTransactionType"
  | settingsUnreadable => "Parse"
  | settingsMissing => "NotFound"
  | initialAppIdZero | initialAssetIdZero | unknownLogFormat .. => "Invalid"
  | _ => fault.severity.name

/-- Whether a number is meant that does not fit in 64 bits: the machine stops there, and nobody
    learns the cause. -/
def stopsMachine (fault : Fault) : Bool :=
  fault matches lengthOverflow | idsExhausted | pagesExhausted

end Fault

/-- A computation that may fail with a fault. -/
abbrev Result := Except Fault

end AvmSandbox
