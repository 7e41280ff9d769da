import AvmSandbox.Codec.References
import AvmSandbox.Ledger.Records

/-! # Settings — what a sandbox is configured with -/

namespace AvmSandbox

/-- The configuration of a sandbox. -/
structure Settings where
  ledger : LedgerSettings := {}
  /-- How reference arguments are laid out. -/
  encoding : ReferenceEncoding := .index
  logLevel : String := "info"
  logFormat : String := "text"
  deriving DecidableEq

namespace Settings

/-- Ids start above zero, which stands for "none", and logs have one of two formats. -/
def validate (s : Settings) : Result Unit :=
  if s.ledger.initialAppId = 0 then .error .initialAppIdZero
  else if s.ledger.initialAssetId = 0 then .error .initialAssetIdZero
  else if s.logFormat ∈ ["text", "json"] then .ok ()
  else .error (.unknownLogFormat s.logFormat)

end Settings

end AvmSandbox
