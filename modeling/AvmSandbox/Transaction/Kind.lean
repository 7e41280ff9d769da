/-! # Transaction kinds and on-completion actions

    Two closed vocabularies of the protocol, each with its fixed names. -/

namespace AvmSandbox

/-- The six kinds of transaction. -/
inductive TransactionKind where
  | payment
  | keyRegistration
  | assetConfig
  | assetTransfer
  | assetFreeze
  | applicationCall
  deriving DecidableEq, Repr, Inhabited

namespace TransactionKind

/-- The short wire name. -/
def name : TransactionKind → String
  | payment => "pay"
  | keyRegistration => "keyreg"
  | assetConfig => "acfg"
  | assetTransfer => "axfer"
  | assetFreeze => "afrz"
  | applicationCall => "appl"

/-- Every kind. -/
def all : List TransactionKind :=
  [payment, keyRegistration, assetConfig, assetTransfer, assetFreeze, applicationCall]

/-- The kind with a short name. -/
def ofName? (s : String) : Option TransactionKind := all.find? fun kind => kind.name = s

theorem ofName?_name (kind : TransactionKind) : ofName? kind.name = some kind := by
  cases kind <;> decide

end TransactionKind

/-- What happens after an application call is approved. -/
inductive OnCompletion where
  | noOp
  | optIn
  | closeOut
  | clearState
  | updateApplication
  | deleteApplication
  deriving DecidableEq, Repr, Inhabited

namespace OnCompletion

/-- The name used in contract descriptions. -/
def name : OnCompletion → String
  | noOp => "NoOp"
  | optIn => "OptIn"
  | closeOut => "CloseOut"
  | clearState => "ClearState"
  | updateApplication => "UpdateApplication"
  | deleteApplication => "DeleteApplication"

/-- Every action, in the order of its number. -/
def all : List OnCompletion :=
  [noOp, optIn, closeOut, clearState, updateApplication, deleteApplication]

/-- The action with a name. -/
def ofName? (s : String) : Option OnCompletion := all.find? fun action => action.name = s

/-- The number the virtual machine uses. -/
def number (action : OnCompletion) : Nat := all.idxOf action

/-- The action with a number. -/
def ofNumber? (n : Nat) : Option OnCompletion := all[n]?

theorem ofName?_name (action : OnCompletion) : ofName? action.name = some action := by
  cases action <;> decide

theorem ofNumber?_number (action : OnCompletion) : ofNumber? action.number = some action := by
  cases action <;> rfl

end OnCompletion

end AvmSandbox
