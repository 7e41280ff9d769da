import AvmSandbox.Ledger.Records

/-! # The ledger — all records of one chain

    Accounts are created when they are first needed; applications and assets
    get successive ids.  Nothing is ever removed.  Every operation either
    returns a new ledger or fails, and then there is no new ledger to go on
    with, but for the creation of an application, which may stop on its way
    (`afterCreation`). -/

namespace AvmSandbox

/-- The records of one chain. -/
structure Ledger where
  settings : LedgerSettings
  globals : Globals
  nextAppId : UInt64
  nextAssetId : UInt64
  accounts : Table Address Account := {}
  applications : Table UInt64 Application := {}
  assets : Table UInt64 Asset := {}
  blocks : Table UInt64 Block := {}
  /-- The application that owns an address. -/
  owners : Table Address UInt64 := {}

namespace Ledger

/-- The ledger without records. -/
def new (settings : LedgerSettings) : Ledger where
  settings
  globals := .ofSettings settings
  nextAppId := settings.initialAppId
  nextAssetId := settings.initialAssetId

/-- The ledger started anew from its own settings. -/
def reset (l : Ledger) : Ledger := new l.settings

/-! ## Accounts -/

/-- The record of an account. -/
def account (l : Ledger) (address : Address) : Result Account :=
  match l.accounts.get? address with
  | some a => .ok a
  | none => .error (.unknownAccount address)

/-- The record an account starts with. -/
def freshAccount (l : Ledger) (address : Address) : Account where
  address
  balance := l.settings.defaultAccountBalance
  minBalance := l.settings.minBalance

/-- The record of an account, a fresh one when there is none. -/
def accountOrFresh (l : Ledger) (address : Address) : Account :=
  (l.accounts.get? address).getD (l.freshAccount address)

/-- Changes the record of an account, which is created when it is missing. -/
def updateAccount (l : Ledger) (address : Address) (f : Account → Account) : Ledger :=
  { l with accounts := l.accounts.insert address (f (l.accountOrFresh address)) }

/-- Creates an account when it is missing. -/
def ensureAccount (l : Ledger) (address : Address) : Ledger := l.updateAccount address id

/-- Changes the record of an account that exists. -/
def modifyAccount (l : Ledger) (address : Address) (f : Account → Account) : Result Ledger := do
  let a ← l.account address
  return { l with accounts := l.accounts.insert address (f a) }

/-! ## Applications -/

/-- The record of an application. -/
def application (l : Ledger) (id : UInt64) : Result Application :=
  match l.applications.get? id with
  | some app => .ok app
  | none => .error (.unknownApplication id)

/-- Changes the record of an application. -/
def modifyApplication (l : Ledger) (id : UInt64) (f : Application → Application) :
    Result Ledger := do
  let app ← l.application id
  return { l with applications := l.applications.insert id (f app) }

/-- The sum of two numbers, if it fits in 64 bits. -/
def addOr (cause : Fault) (a b : UInt64) : Result UInt64 :=
  if a.toNat + b.toNat < UInt64.size then .ok (a + b) else .error cause

/-- The id after `id`, if ids are not used up. -/
def nextId (id : UInt64) : Result UInt64 := addOr .idsExhausted id 1

/-- The sum of extra pages. -/
def addPages (a b : UInt64) : Result UInt64 := addOr .pagesExhausted a b

/-- Creates an application together with its account. -/
def createApplication (l : Ledger) (creator : Address) (program : Program) :
    Result (UInt64 × Ledger) := do
  let id := l.nextAppId
  let app := Application.new id creator program
  let next ← nextId id
  let extraPages ← addPages (l.accountOrFresh creator).extraPages program.extraPages
  let l := { l with nextAppId := next }
  let l := l.updateAccount creator fun a =>
    { a with appsCreated := a.appsCreated + 1, extraPages }
  let l := { l with owners := l.owners.insert app.address id }
  let l := l.ensureAccount app.address
  return (id, { l with applications := l.applications.insert id app })

/-- The ledger in which a creation has begun: unless ids are used up, the next one is taken and
    the creator counts one application more, whose pages are added up only then. -/
def beginCreation (l : Ledger) (creator : Address) : Ledger :=
  match nextId l.nextAppId with
  | .ok next =>
      { l with nextAppId := next }.updateAccount creator fun a =>
        { a with appsCreated := a.appsCreated + 1 }
  | .error _ => l

/-- The ledger that a creation leaves.  One that stops at the extra pages has begun, and nothing
    takes that back. -/
def afterCreation (l : Ledger) (creator : Address) (program : Program) : Ledger :=
  match l.createApplication creator program with
  | .ok (_, l) => l
  | .error _ => l.beginCreation creator

/-- The application that owns an address. -/
def owner? (l : Ledger) (address : Address) : Option UInt64 := l.owners.get? address

/-- Adds an entry to the log of an application. -/
def appendLog (l : Ledger) (id : UInt64) (entry : Bytes) : Result Ledger :=
  l.modifyApplication id fun app => { app with logs := app.logs ++ [entry] }

/-- Marks an application as being created, or no longer. -/
def setCreating (l : Ledger) (id : UInt64) (value : Bool) : Result Ledger :=
  l.modifyApplication id fun app => { app with isCreating := value }

/-- Runs an action on the boxes of an application. -/
def withBoxes {α : Type} (l : Ledger) (id : UInt64) (action : BoxAction α) :
    Result (Result α × Ledger) := do
  let app ← l.application id
  match action.run app.boxes with
  | .error e => return (.error e, l)
  | .ok (a, boxes) =>
      return (.ok a,
        { l with applications := l.applications.insert id { app with boxes } })

/-! ## State -/

/-- The value of a global key and whether it exists. -/
def globalState (l : Ledger) (id : UInt64) (key : Bytes) : Result (StackValue × Bool) :=
  return StateStore.read (← l.application id).globals key

/-- Writes or deletes a global key. -/
def setGlobalState (l : Ledger) (id : UInt64) (key : Bytes) (v : Option StackValue) :
    Result Ledger :=
  l.modifyApplication id fun app => { app with globals := StateStore.update app.globals key v }

/-- The local state of an account that is opted in. -/
def localStore (l : Ledger) (id : UInt64) (account : Address) :
    Result (Application × StateStore) := do
  let app ← l.application id
  match app.locals.get? account with
  | some store => return (app, store)
  | none => throw (.notOptedIn id account)

/-- The value of a local key and whether it exists. -/
def localState (l : Ledger) (id : UInt64) (account : Address) (key : Bytes) :
    Result (StackValue × Bool) :=
  return StateStore.read (← l.localStore id account).2 key

/-- Writes or deletes a local key. -/
def setLocalState (l : Ledger) (id : UInt64) (account : Address) (key : Bytes)
    (v : Option StackValue) : Result Ledger := do
  let (app, store) ← l.localStore id account
  let locals := app.locals.insert account (StateStore.update store key v)
  return { l with applications := l.applications.insert id { app with locals } }

/-- Whether an account is opted in to an application. -/
def isOptedIn (l : Ledger) (id : UInt64) (account : Address) : Result Bool :=
  return (← l.application id).locals.contains account

/-- Opts an account in to an application; once is enough. -/
def optIn (l : Ledger) (id : UInt64) (account : Address) : Result Ledger := do
  let app ← l.application id
  if app.locals.contains account then return l
  let locals := app.locals.insert account {}
  let l := { l with applications := l.applications.insert id { app with locals } }
  return l.updateAccount account fun a =>
    { a with optedIn := a.optedIn.insert id (), appsOptedIn := a.appsOptedIn + 1 }

/-- Closes an account out of an application, which drops its local state. -/
def closeOut (l : Ledger) (id : UInt64) (account : Address) : Result Ledger := do
  let (app, _) ← l.localStore id account
  let locals := app.locals.erase account
  let l := { l with applications := l.applications.insert id { app with locals } }
  l.modifyAccount account fun a =>
    { a with optedIn := a.optedIn.erase id, appsOptedIn := a.appsOptedIn - 1 }

/-! ## Assets -/

/-- The record of an asset. -/
def asset (l : Ledger) (id : UInt64) : Result Asset :=
  match l.assets.get? id with
  | some a => .ok a
  | none => .error (.unknownAsset id)

/-- Creates an asset, the whole supply of which its creator holds. -/
def createAsset (l : Ledger) (creator : Address) (params : AssetParams) :
    Result (UInt64 × Ledger) := do
  let id := l.nextAssetId
  let l := { l with nextAssetId := ← nextId id }
  let l := { l with assets := l.assets.insert id ⟨id, creator, params⟩ }
  let l := l.updateAccount creator fun a =>
    { a with
      assetsCreated := a.assetsCreated + 1
      assetsHeld := a.assetsHeld + 1
      holdings := a.holdings.insert id ⟨params.total, params.defaultFrozen⟩ }
  return (id, l)

/-- Gives an asset new parameters. -/
def configureAsset (l : Ledger) (id : UInt64) (params : AssetParams) : Result Ledger := do
  let a ← l.asset id
  return { l with assets := l.assets.insert id { a with params } }

/-- Opts an account in to an asset, of which it then holds nothing. -/
def optInAsset (l : Ledger) (id : UInt64) (account : Address) : Result Ledger := do
  let asset ← l.asset id
  return l.updateAccount account fun a =>
    if a.holdings.contains id then a else
      { a with
        holdings := a.holdings.insert id ⟨0, asset.params.defaultFrozen⟩
        assetsHeld := a.assetsHeld + 1 }

/-- What an account holds of an asset. -/
def holding (l : Ledger) (id : UInt64) (account : Address) : Result Holding := do
  let _ ← l.asset id
  match (← l.account account).holdings.get? id with
  | some h => return h
  | none => throw (.notOptedInAsset id account)

/-- Changes what an account holds of an asset it is opted in to. -/
def setHolding (l : Ledger) (id : UInt64) (account : Address) (h : Holding) :
    Result Ledger := do
  let _ ← l.holding id account
  l.modifyAccount account fun a => { a with holdings := a.holdings.insert id h }

/-! ## Blocks -/

/-- Records a block. -/
def setBlock (l : Ledger) (round : UInt64) (b : Block) : Ledger :=
  { l with blocks := l.blocks.insert round b }

def block (l : Ledger) (round : UInt64) : Result Block :=
  match l.blocks.get? round with
  | some b => .ok b
  | none => .error (.unknownBlock round)

end Ledger

end AvmSandbox
