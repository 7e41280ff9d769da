import AvmSandbox.Proofs.Action
import AvmSandbox.Proofs.Table
import AvmSandbox.Ledger.Basic

/-! # Records — lookups and changes of single records

    An account that has no record yet is given a fresh one when it is first
    changed, so accounts are best seen through `accountOrFresh`, which always
    has an answer.  A change is seen at its own address or id and nowhere else.

    * `application_eq_ok_iff`, `account_eq_ok_iff`, `asset_eq_ok_iff`: lookups;
    * `accountOrFresh_updateAccount`, `get?_of_modifyApplication`: changes;
    * `closeOut_eq_ok_iff`: the end of an opt-in;
    * `of_createApplication`, `of_createAsset`: new records and their ids. -/

namespace AvmSandbox

namespace Ledger

variable {l l' : Ledger} {id : UInt64} {x : Address}

/-! ## Lookups -/

/-- An application is found when it is registered. -/
theorem application_eq_ok_iff {app : Application} :
    l.application id = .ok app ↔ l.applications.get? id = some app := by
  rw [application]
  cases l.applications.get? id <;> simp

/-- There is one way only to fail to find an application. -/
theorem application_of_ne_ok (h : ∀ app, l.application id ≠ .ok app) :
    l.application id = .error (.unknownApplication id) := by
  cases happ : l.applications.get? id with
  | none => rw [application, happ]
  | some app => exact absurd (application_eq_ok_iff.mpr happ) (h app)

/-- An account is found when it has a record. -/
theorem account_eq_ok_iff {a : Account} : l.account x = .ok a ↔ l.accounts.get? x = some a := by
  rw [account]
  cases l.accounts.get? x <;> simp

/-- An asset is found when it is registered. -/
theorem asset_eq_ok_iff {a : Asset} : l.asset id = .ok a ↔ l.assets.get? id = some a := by
  rw [asset]
  cases l.assets.get? id <;> simp

/-- Local state is found when the application is registered and the account is opted in to it. -/
theorem localStore_eq_ok_iff {app : Application} {store : StateStore} :
    l.localStore id x = .ok (app, store) ↔
      l.applications.get? id = some app ∧ app.locals.get? x = some store := by
  rw [localStore, bind_eq_ok_iff]
  constructor
  · rintro ⟨found, hfound, h⟩
    cases hstore : found.locals.get? x with
    | none => simp [hstore] at h
    | some s =>
        simp only [hstore, pure_eq_ok_iff, Prod.mk.injEq] at h
        obtain ⟨rfl, rfl⟩ := h
        exact ⟨application_eq_ok_iff.mp hfound, hstore⟩
  · rintro ⟨happ, hstore⟩
    refine ⟨app, application_eq_ok_iff.mpr happ, ?_⟩
    simp [hstore]

/-- An account with a record is seen as that. -/
theorem accountOrFresh_of_get? {a : Account} (h : l.accounts.get? x = some a) :
    l.accountOrFresh x = a := by
  rw [accountOrFresh, h, Option.getD_some]

/-- An account without a record is seen as a fresh one. -/
theorem accountOrFresh_of_absent (h : l.accounts.contains x = false) :
    l.accountOrFresh x = l.freshAccount x := by
  rw [accountOrFresh, Table.contains_eq_false_iff.mp h, Option.getD_none]

/-! ## Changes -/

/-- A change of an application is seen under its id and nowhere else. -/
theorem get?_of_modifyApplication {f : Application → Application}
    (h : l.modifyApplication id f = .ok l') :
    ∃ app, l.applications.get? id = some app ∧ ∀ other, l'.applications.get? other =
      if other = id then some (f app) else l.applications.get? other := by
  obtain ⟨app, happ, hl'⟩ := bind_eq_ok_iff.mp h
  obtain rfl := pure_eq_ok_iff.mp hl'
  exact ⟨app, application_eq_ok_iff.mp happ, fun other => Table.get?_insert ..⟩

/-- The ledger with another record of an application. -/
def withApplication (l : Ledger) (id : UInt64) (app : Application) : Ledger :=
  { l with applications := l.applications.insert id app }

/-- Another record of an application is seen under its id and nowhere else. -/
theorem get?_withApplication (l : Ledger) (id : UInt64) (app : Application) (other : UInt64) :
    (l.withApplication id app).applications.get? other =
      if other = id then some app else l.applications.get? other := Table.get?_insert ..

/-- A change of an account is seen at its address and nowhere else. -/
theorem accountOrFresh_updateAccount (l : Ledger) (x : Address) (f : Account → Account)
    (y : Address) :
    (l.updateAccount x f).accountOrFresh y =
      if y = x then f (l.accountOrFresh x) else l.accountOrFresh y := by
  show ((l.accounts.insert x (f (l.accountOrFresh x))).get? y).getD (l.freshAccount y) = _
  rw [Table.get?_insert]
  by_cases h : y = x
  · rw [if_pos h, if_pos h, Option.getD_some]
  · rw [if_neg h, if_neg h]
    rfl

/-- An account that is changed has a record from then on. -/
theorem contains_updateAccount (l : Ledger) (x : Address) (f : Account → Account) (y : Address) :
    (l.updateAccount x f).accounts.contains y = true ↔ y = x ∨ l.accounts.contains y = true :=
  Table.contains_insert ..

/-- Making sure of a record changes nothing that is seen of any account. -/
theorem accountOrFresh_ensureAccount (l : Ledger) (x y : Address) :
    (l.ensureAccount x).accountOrFresh y = l.accountOrFresh y := by
  rw [ensureAccount, accountOrFresh_updateAccount]
  by_cases h : y = x
  · rw [if_pos h, h]
    rfl
  · rw [if_neg h]

/-- An account with a record is changed as one without. -/
theorem modifyAccount_eq_ok_iff {f : Account → Account} :
    l.modifyAccount x f = .ok l' ↔ l.accounts.contains x = true ∧ l' = l.updateAccount x f := by
  rw [modifyAccount, bind_eq_ok_iff]
  simp only [account_eq_ok_iff, pure_eq_ok_iff]
  constructor
  · rintro ⟨a, ha, rfl⟩
    refine ⟨Table.contains_of_get? ha, ?_⟩
    rw [updateAccount, accountOrFresh_of_get? ha]
  · rintro ⟨hx, rfl⟩
    obtain ⟨a, ha⟩ := Table.contains_eq_true_iff.mp hx
    refine ⟨a, ha, ?_⟩
    rw [updateAccount, accountOrFresh_of_get? ha]

/-! ## Opt-ins -/

/-- What an account is after an opt-in. -/
def enlist (id : UInt64) (a : Account) : Account :=
  { a with optedIn := a.optedIn.insert id (), appsOptedIn := a.appsOptedIn + 1 }

/-- What an account is when it was closed out. -/
def delist (id : UInt64) (a : Account) : Account :=
  { a with optedIn := a.optedIn.erase id, appsOptedIn := a.appsOptedIn - 1 }

/-- An account is closed out of an application in which it has local state. -/
theorem closeOut_eq_ok_iff :
    l.closeOut id x = .ok l' ↔ ∃ app, l.applications.get? id = some app ∧
      app.locals.contains x = true ∧ l.accounts.contains x = true ∧
      l' = (l.withApplication id { app with locals := app.locals.erase x }).updateAccount x
        (delist id) := by
  rw [closeOut, bind_eq_ok_iff]
  constructor
  · rintro ⟨⟨app, store⟩, hstore, h⟩
    obtain ⟨happ, hstore⟩ := localStore_eq_ok_iff.mp hstore
    obtain ⟨hx, hl'⟩ := modifyAccount_eq_ok_iff.mp h
    exact ⟨app, happ, Table.contains_of_get? hstore, hx, hl'⟩
  · rintro ⟨app, happ, hlocals, hx, hl'⟩
    obtain ⟨store, hstore⟩ := Table.contains_eq_true_iff.mp hlocals
    exact ⟨(app, store), localStore_eq_ok_iff.mpr ⟨happ, hstore⟩,
      modifyAccount_eq_ok_iff.mpr ⟨hx, hl'⟩⟩

/-! ## New records -/

section addOr

variable {cause e : Fault} {a b c : UInt64}

/-- A sum is there exactly when it fits in 64 bits. -/
theorem addOr_eq_ok_iff :
    addOr cause a b = .ok c ↔ a.toNat + b.toNat < UInt64.size ∧ a + b = c := by
  rw [addOr]
  by_cases h : a.toNat + b.toNat < UInt64.size
  · simp [h]
  · simp [h]

/-- And it fails for the given cause when it does not. -/
theorem addOr_eq_error_iff :
    addOr cause a b = .error e ↔ UInt64.size ≤ a.toNat + b.toNat ∧ e = cause := by
  rw [addOr]
  by_cases h : a.toNat + b.toNat < UInt64.size
  · simp [h, Nat.not_le.mpr h]
  · simp [h, Nat.not_lt.mp h, eq_comm]

/-- A sum that fits is the sum of the numbers. -/
theorem toNat_of_addOr (h : addOr cause a b = .ok c) : c.toNat = a.toNat + b.toNat := by
  obtain ⟨hlt, rfl⟩ := addOr_eq_ok_iff.mp h
  rw [UInt64.toNat_add]
  exact Nat.mod_eq_of_lt hlt

end addOr

/-- There is a next id below the last one. -/
theorem nextId_eq_ok_iff {next : UInt64} :
    nextId id = .ok next ↔ id.toNat + 1 < UInt64.size ∧ id + 1 = next := addOr_eq_ok_iff

/-- The next id is one more. -/
theorem toNat_of_nextId {next : UInt64} (h : nextId id = .ok next) : next.toNat = id.toNat + 1 :=
  toNat_of_addOr h

/-- The next id is greater, so that no id is handed out twice. -/
theorem lt_of_nextId {next : UInt64} (h : nextId id = .ok next) : id < next := by
  rw [UInt64.lt_iff_toNat_lt, toNat_of_nextId h]
  exact Nat.lt_succ_self _

/-- Behind the last id there is none. -/
theorem nextId_eq_error_iff {e : Fault} :
    nextId id = .error e ↔ UInt64.size ≤ id.toNat + 1 ∧ e = .idsExhausted := addOr_eq_error_iff

/-- What the account of an application's creator counts, and how many pages it comes to. -/
def countApp (pages : UInt64) (a : Account) : Account :=
  { a with appsCreated := a.appsCreated + 1, extraPages := pages }

/-- A new application is registered under the next id, together with its account. -/
theorem of_createApplication {creator : Address} {program : Program}
    (h : l.createApplication creator program = .ok (id, l')) :
    id = l.nextAppId ∧ ∃ next pages, nextId id = .ok next ∧
      addPages (l.accountOrFresh creator).extraPages program.extraPages = .ok pages ∧
      l' = { (l.updateAccount creator (countApp pages)).ensureAccount (.ofApplication id) with
        nextAppId := next
        owners := l.owners.insert (.ofApplication id) id
        applications := l.applications.insert id (.new id creator program) } := by
  obtain ⟨next, hnext, h⟩ := bind_eq_ok_iff.mp h
  obtain ⟨pages, hpages, h⟩ := bind_eq_ok_iff.mp h
  cases h
  exact ⟨rfl, next, pages, hnext, hpages, rfl⟩

/-- A creation is refused where there are no more ids, or where the pages of its creator with its
    own do not fit. -/
theorem createApplication_eq_error_iff {creator : Address} {program : Program} {e : Fault} :
    l.createApplication creator program = .error e ↔
      UInt64.size ≤ l.nextAppId.toNat + 1 ∧ e = .idsExhausted ∨
      l.nextAppId.toNat + 1 < UInt64.size ∧
        UInt64.size ≤ (l.accountOrFresh creator).extraPages.toNat + program.extraPages.toNat ∧
        e = .pagesExhausted := by
  rw [createApplication]
  cases hnext : nextId l.nextAppId with
  | error e' =>
      obtain ⟨hle, rfl⟩ := nextId_eq_error_iff.mp hnext
      constructor
      · rintro ⟨⟩
        exact .inl ⟨hle, rfl⟩
      · rintro (⟨-, rfl⟩ | ⟨hlt, -⟩)
        · rfl
        · omega
  | ok next =>
      have hlt := (nextId_eq_ok_iff.mp hnext).1
      dsimp only
      rw [ok_bind]
      cases hpages : addPages (l.accountOrFresh creator).extraPages program.extraPages with
      | error e' =>
          obtain ⟨hle, rfl⟩ := addOr_eq_error_iff.mp hpages
          constructor
          · rintro ⟨⟩
            exact .inr ⟨hlt, hle, rfl⟩
          · rintro (⟨hids, -⟩ | ⟨-, -, rfl⟩)
            · omega
            · rfl
      | ok pages =>
          have hfits := (addOr_eq_ok_iff.mp hpages).1
          constructor
          · rintro ⟨⟩
          · rintro (⟨hids, -⟩ | ⟨-, hle, -⟩)
            · omega
            · omega

/-- A creation that is refused leaves no trace where ids are used up, and else the next id taken
    and one application more counted by its creator. -/
theorem of_beginCreation (l : Ledger) (creator : Address) :
    UInt64.size ≤ l.nextAppId.toNat + 1 ∧ l.beginCreation creator = l ∨
    ∃ next, nextId l.nextAppId = .ok next ∧ l.beginCreation creator =
      { l.updateAccount creator (fun a => countApp a.extraPages a) with nextAppId := next } := by
  rw [beginCreation]
  cases hnext : nextId l.nextAppId with
  | error e => exact .inl ⟨(nextId_eq_error_iff.mp hnext).1, rfl⟩
  | ok next => exact .inr ⟨next, rfl, rfl⟩

/-- What the account of an asset's creator counts and holds. -/
def holdNew (id : UInt64) (params : AssetParams) (a : Account) : Account :=
  { a with
    assetsCreated := a.assetsCreated + 1
    assetsHeld := a.assetsHeld + 1
    holdings := a.holdings.insert id ⟨params.total, params.defaultFrozen⟩ }

/-- A new asset is registered under the next id, and its creator holds it. -/
theorem of_createAsset {creator : Address} {params : AssetParams}
    (h : l.createAsset creator params = .ok (id, l')) :
    id = l.nextAssetId ∧ ∃ next, nextId id = .ok next ∧
      l' = { l.updateAccount creator (holdNew id params) with
        nextAssetId := next
        assets := l.assets.insert id ⟨id, creator, params⟩ } := by
  obtain ⟨next, hnext, h⟩ := bind_eq_ok_iff.mp h
  cases h
  exact ⟨rfl, next, hnext, rfl⟩

end Ledger

end AvmSandbox
