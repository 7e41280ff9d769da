import AvmSandbox.Ledger.Box

/-! # Records — what the ledger knows of accounts, applications and assets -/

namespace AvmSandbox

/-! ## Accounts -/

/-- What an account holds of one asset. -/
structure Holding where
  balance : UInt64
  frozen : Bool
  deriving DecidableEq, Inhabited

/-- The record of an account.  It counts applications and assets, of which there are no more than
    ids, as numbers.  Extra pages are what creators ask for, and their sum has only 64 bits. -/
structure Account where
  address : Address
  /-- In millionths of the currency. -/
  balance : UInt64
  minBalance : UInt64
  authAddress : Address := .zero
  /-- How many applications the account has created. -/
  appsCreated : Nat := 0
  /-- How many applications the account is opted in to. -/
  appsOptedIn : Nat := 0
  /-- How many assets the account has created. -/
  assetsCreated : Nat := 0
  /-- How many assets the account holds. -/
  assetsHeld : Nat := 0
  /-- The extra program pages of all applications the account has created. -/
  extraPages : UInt64 := 0
  holdings : Table UInt64 Holding := {}
  /-- The applications the account is opted in to. -/
  optedIn : Table UInt64 Unit := {}

/-! ## Applications -/

/-- How many numbers and byte strings a state may hold. -/
structure Schema where
  uints : UInt64 := 0
  byteSlices : UInt64 := 0
  deriving DecidableEq, Inhabited

/-- What an application is created with. -/
structure Program where
  approval : Bytes := []
  clearState : Bytes := []
  globalSchema : Schema := {}
  localSchema : Schema := {}
  extraPages : UInt64 := 0
  deriving DecidableEq, Inhabited

structure Application where
  id : UInt64
  address : Address
  creator : Address
  program : Program
  globals : StateStore := {}
  /-- The local state of every account that is opted in. -/
  locals : Table Address StateStore := {}
  boxes : BoxStore := {}
  /-- The log entries of all calls, oldest first. -/
  logs : List Bytes := []
  /-- Set while the call that creates the application runs. -/
  isCreating : Bool := false

namespace Application

/-- A new application, whose account address follows from its id. -/
def new (id : UInt64) (creator : Address) (program : Program) : Application where
  id
  address := .ofApplication id
  creator
  program

end Application

/-! ## Assets -/

/-- What an asset is created with. -/
structure AssetParams where
  total : UInt64 := 0
  decimals : UInt32 := 0
  defaultFrozen : Bool := false
  unitName : Bytes := []
  name : Bytes := []
  url : Bytes := []
  metadataHash : Bytes32 := .zero
  manager : Address := .zero
  reserve : Address := .zero
  freeze : Address := .zero
  clawback : Address := .zero
  deriving DecidableEq, Inhabited

structure Asset where
  id : UInt64
  creator : Address
  params : AssetParams
  deriving DecidableEq

/-! ## Blocks and globals -/

/-- What contracts can learn of one round. -/
structure Block where
  seed : UInt64
  timestamp : UInt64
  deriving DecidableEq

/-- What a ledger starts from. -/
structure LedgerSettings where
  /-- The first application id that is handed out. -/
  initialAppId : UInt64 := 1001
  /-- The first asset id that is handed out. -/
  initialAssetId : UInt64 := 1001
  minTxnFee : UInt64 := 1000
  minBalance : UInt64 := 100000
  /-- What accounts own that are created on first use. -/
  defaultAccountBalance : UInt64 := 0
  genesisTimestamp : UInt64 := 0
  round : UInt64 := 1
  deriving DecidableEq, Inhabited

/-- The protocol values contracts can ask for. -/
structure Globals where
  minTxnFee : UInt64
  minBalance : UInt64
  maxTxnLife : UInt64
  zeroAddress : Address
  round : UInt64
  latestTimestamp : UInt64
  genesisHash : Bytes32
  /-- The application that issued the running inner call, 0 at top level. -/
  callerApplicationId : UInt64
  assetCreateMinBalance : UInt64
  assetOptInMinBalance : UInt64
  deriving DecidableEq

namespace Globals

/-- The values that follow from the settings. -/
def ofSettings (s : LedgerSettings) : Globals where
  minTxnFee := s.minTxnFee
  minBalance := s.minBalance
  maxTxnLife := 1000
  zeroAddress := .zero
  round := s.round
  latestTimestamp := s.genesisTimestamp
  genesisHash := .zero
  callerApplicationId := 0
  assetCreateMinBalance := s.minBalance
  assetOptInMinBalance := s.minBalance

end Globals

end AvmSandbox
