import AvmSandbox.Settings.Basic
import AvmSandbox.Text.TomlString

/-! # Settings documents — reading and writing settings as TOML

    A document has a record for each part of the settings.  What it leaves out
    keeps its default, and what it adds is ignored.  A record is written as a
    table, or as an array of its fields in order. -/

namespace AvmSandbox.Settings

/-! ## Reading -/

/-- The entries of a record by name.  The items of an array take the names in order; a date
    counts as a record that sets nothing. -/
def recordEntries? (names : List String) : Toml → Option (List (String × Toml))
  | .table _ entries => some entries
  | .array items => some (names.zip items)
  | .tables items => some (names.zip (items.map (Toml.table .opened)))
  | .date => some []
  | _ => none

/-- A field of a record, which keeps a default when it is left out. -/
def fieldOr {α : Type} (default : α) (read : Toml → Option α) (name : String)
    (entries : List (String × Toml)) : Option α :=
  match Toml.find? name entries with
  | some v => read v
  | none => some default

/-- An amount, which is never negative. -/
def readAmount : Toml → Option UInt64
  | .integer n => if 0 ≤ n then some (UInt64.ofNat n.toNat) else none
  | _ => none

def readText : Toml → Option String
  | .string s => some s
  | _ => none

/-- An encoding: its name, or a table that holds nothing but an empty entry of that name. -/
def readEncoding : Toml → Option ReferenceEncoding
  | .string s => ReferenceEncoding.ofName? s
  | .table _ [(name, .table _ [])] | .table _ [(name, .array [])] =>
      ReferenceEncoding.ofName? name
  | _ => none

/-- The names of the ledger's settings. -/
def ledgerNames : List String :=
  ["initial_app_id", "initial_asset_id", "min_txn_fee", "min_balance",
    "default_account_balance", "genesis_timestamp", "round"]

/-- The ledger's settings. -/
def readLedger (v : Toml) : Option LedgerSettings := do
  let entries ← recordEntries? ledgerNames v
  let d : LedgerSettings := {}
  let amount (name : String) (default : UInt64) := fieldOr default readAmount name entries
  return {
    initialAppId := ← amount "initial_app_id" d.initialAppId
    initialAssetId := ← amount "initial_asset_id" d.initialAssetId
    minTxnFee := ← amount "min_txn_fee" d.minTxnFee
    minBalance := ← amount "min_balance" d.minBalance
    defaultAccountBalance := ← amount "default_account_balance" d.defaultAccountBalance
    genesisTimestamp := ← amount "genesis_timestamp" d.genesisTimestamp
    round := ← amount "round" d.round }

/-- How references are laid out. -/
def readResources (v : Toml) : Option ReferenceEncoding := do
  fieldOr .index readEncoding "encoding" (← recordEntries? ["encoding"] v)

/-- The level and the format of logs. -/
def readLogging (v : Toml) : Option (String × String) := do
  let entries ← recordEntries? ["level", "format"] v
  let d : Settings := {}
  return (← fieldOr d.logLevel readText "level" entries,
    ← fieldOr d.logFormat readText "format" entries)

def ofEntries (entries : List (String × Toml)) : Option Settings := do
  let d : Settings := {}
  let ledger ← fieldOr d.ledger readLedger "ledger" entries
  let encoding ← fieldOr d.encoding readResources "resources" entries
  let (logLevel, logFormat) ←
    fieldOr (d.logLevel, d.logFormat) readLogging "logging" entries
  return { ledger, encoding, logLevel, logFormat }

/-- Reads and validates a document. -/
def parse (text : String) : Result Settings := do
  match (Toml.parse text).bind ofEntries with
  | some s =>
      s.validate
      return s
  | none => throw .settingsUnreadable

/-- The settings of a document that may be missing. -/
def load : Option String → Result Settings
  | some text => parse text
  | none => .error .settingsMissing

/-! ## Writing -/

def line (key value : String) : String := key ++ " = " ++ value ++ "\n"

/-- The ledger's settings by name. -/
def ledgerEntries (s : Settings) : List (String × UInt64) := [
  ("initial_app_id", s.ledger.initialAppId),
  ("initial_asset_id", s.ledger.initialAssetId),
  ("min_txn_fee", s.ledger.minTxnFee),
  ("min_balance", s.ledger.minBalance),
  ("default_account_balance", s.ledger.defaultAccountBalance),
  ("genesis_timestamp", s.ledger.genesisTimestamp),
  ("round", s.ledger.round)]

def document (s : Settings) : String :=
  "[ledger]\n"
    ++ String.join (s.ledgerEntries.map fun e => line e.1 (toString e.2.toNat))
    ++ "\n[resources]\n"
    ++ line "encoding" (Toml.writeString s.encoding.name)
    ++ "\n[logging]\n"
    ++ line "level" (Toml.writeString s.logLevel)
    ++ line "format" (Toml.writeString s.logFormat)

end AvmSandbox.Settings
