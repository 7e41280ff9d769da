import AvmSandbox.Fault

/-! # Kinds and actions by name — checked reading -/

namespace AvmSandbox

/-- Reads the short name of a kind of transaction. -/
def TransactionKind.parse (name : String) : Result TransactionKind :=
  match ofName? name with
  | some kind => .ok kind
  | none => .error (.unknownTransactionKind name)

/-- Reads the name of an on-completion action. -/
def OnCompletion.parse (name : String) : Result OnCompletion :=
  match ofName? name with
  | some action => .ok action
  | none => .error (.unknownOnCompletion name)

theorem TransactionKind.parse_name (kind : TransactionKind) : parse kind.name = .ok kind := by
  simp [parse, ofName?_name]

theorem OnCompletion.parse_name (action : OnCompletion) : parse action.name = .ok action := by
  simp [parse, ofName?_name]

end AvmSandbox
