import AvmSandbox.Proofs.Ledger.Preservation
import Mathlib.Data.List.Nodup
import Mathlib.Data.Set.Function

/-! # Reachable — ledgers in use

    The records of a ledger agree whatever was done to it and whatever failed,
    but for the applications that a creator counts whose creation has stopped.
    Who has been left with such a creation is read off the operations.

    * `Operation`, `Operation.left` and `Operation.stranded`: the operations, and
      what one that fails leaves behind;
    * `Reachable`: the ledgers that they lead to;
    * `consistent_after`, `consistent_foldl`: one operation, and any row of them;
    * `Consistent.fits`, `Consistent.forall_counts_iff` and others: what it means for
      accounts;
    * `records_of_run`: what holds of every ledger in use. -/

namespace AvmSandbox

namespace Ledger

variable {l l' : Ledger} {id : UInt64} {x : Address} {stops : Address → Nat}

/-! ## Ledgers in use -/

/-- What can be done to a ledger. -/
inductive Operation where
  | createApplication (creator : Address) (program : Program)
  | createAsset (creator : Address) (params : AssetParams)
  | optIn (id : UInt64) (account : Address)
  | closeOut (id : UInt64) (account : Address)
  | optInAsset (id : UInt64) (account : Address)
  | setHolding (id : UInt64) (account : Address) (held : Holding)
  | configureAsset (id : UInt64) (params : AssetParams)
  | ensureAccount (account : Address)
  | setGlobalState (id : UInt64) (key : Bytes) (v : Option StackValue)
  | setLocalState (id : UInt64) (account : Address) (key : Bytes) (v : Option StackValue)
  | withBoxes (id : UInt64) (action : BoxAction Unit)
  | appendLog (id : UInt64) (entry : Bytes)
  | setCreating (id : UInt64) (value : Bool)
  | setBlock (round : UInt64) (b : Block)
  /-- The effects of an inner transaction. -/
  | applyEffects (t : Transaction)

namespace Operation

/-- The ledger that an operation leads to. -/
def run (l : Ledger) : Operation → Result Ledger
  | createApplication creator program => return (← l.createApplication creator program).2
  | createAsset creator params => return (← l.createAsset creator params).2
  | optIn id account => l.optIn id account
  | closeOut id account => l.closeOut id account
  | optInAsset id account => l.optInAsset id account
  | setHolding id account held => l.setHolding id account held
  | configureAsset id params => l.configureAsset id params
  | ensureAccount account => return l.ensureAccount account
  | setGlobalState id key v => l.setGlobalState id key v
  | setLocalState id account key v => l.setLocalState id account key v
  | withBoxes id action => return (← l.withBoxes id action).2
  | appendLog id entry => l.appendLog id entry
  | setCreating id value => l.setCreating id value
  | setBlock round b => return l.setBlock round b
  | applyEffects t => return (← AvmSandbox.applyEffects t l).2

/-- The ledger that an operation leaves when it fails, which is the same one unless a creation has
    begun. -/
def left (l : Ledger) : Operation → Ledger
  | createApplication creator _ => l.beginCreation creator
  | _ => l

/-- The ledger to go on with. -/
def after (l : Ledger) (op : Operation) : Ledger :=
  match op.run l with
  | .ok l' => l'
  | .error _ => op.left l

/-- The account that is left with a creation that has begun and not ended, if there is one. -/
def stranded (l : Ledger) : Operation → List Address
  | createApplication creator program =>
      match l.createApplication creator program with
      | .error .pagesExhausted => [creator]
      | _ => []
  | _ => []

/-- A creation goes on with the ledger that it leaves. -/
theorem after_createApplication (l : Ledger) (creator : Address) (program : Program) :
    (createApplication creator program).after l = l.afterCreation creator program := by
  rw [after, run, afterCreation]
  cases l.createApplication creator program with
  | ok created => rfl
  | error e => rfl

/-- An operation that succeeds leaves nobody with a creation that has begun. -/
theorem stranded_of_run {op : Operation} (hrun : op.run l = .ok l') : op.stranded l = [] := by
  cases op with
  | createApplication creator program =>
      obtain ⟨⟨id, after⟩, hcreate, -⟩ := bind_eq_ok_iff.mp hrun
      rw [stranded, hcreate]
  | _ => rfl

/-- A creation that stops has registered nothing. -/
theorem applications_left (l : Ledger) (op : Operation) :
    (op.left l).applications = l.applications := by
  cases op with
  | createApplication creator program =>
      show (l.beginCreation creator).applications = l.applications
      obtain ⟨-, h⟩ | ⟨next, -, h⟩ := of_beginCreation l creator
      · rw [h]
      · rw [h]
        rfl
  | _ => rfl

end Operation

/-- The accounts that are left with creations that have begun and not ended, in a row of
    operations, the earliest first. -/
def stranded (l : Ledger) : List Operation → List Address
  | [] => []
  | op :: ops => op.stranded l ++ stranded (op.after l) ops

/-- **AN OPERATION THAT SUCCEEDS** leaves the records in agreement. -/
theorem consistent_of_run {op : Operation} (h : l.Consistent stops) (hrun : op.run l = .ok l') :
    l'.Consistent stops := by
  cases op with
  | createApplication creator program =>
      obtain ⟨⟨id, after⟩, hcreate, hrun⟩ := bind_eq_ok_iff.mp hrun
      cases hrun
      exact consistent_createApplication h hcreate
  | createAsset creator params =>
      obtain ⟨⟨id, after⟩, hcreate, hrun⟩ := bind_eq_ok_iff.mp hrun
      cases hrun
      exact consistent_createAsset h hcreate
  | optIn id account => exact consistent_optIn h hrun
  | closeOut id account => exact consistent_closeOut h hrun
  | optInAsset id account => exact consistent_optInAsset h hrun
  | setHolding id account held => exact consistent_setHolding h hrun
  | configureAsset id params => exact consistent_configureAsset h hrun
  | ensureAccount account =>
      cases hrun
      exact consistent_ensureAccount h account
  | setGlobalState id key v | appendLog id entry | setCreating id value =>
      exact consistent_modifyApplication h hrun (fun _ => rfl) fun _ => rfl
  | setLocalState id account key v => exact consistent_setLocalState h hrun
  | withBoxes id action =>
      obtain ⟨⟨answer, after⟩, hboxes, hrun⟩ := bind_eq_ok_iff.mp hrun
      cases hrun
      exact consistent_withBoxes h hboxes
  | setBlock round b =>
      cases hrun
      refine { h with counts := ?_ }
      intro x
      exact ⟨(h.counts x).apps, (h.counts x).pages, (h.counts x).assets⟩
  | applyEffects t =>
      obtain ⟨⟨t', after⟩, heffects, hrun⟩ := bind_eq_ok_iff.mp hrun
      cases hrun
      exact consistent_applyEffects h heffects

/-- One that fails leaves them so, too, but for the creation that it may have begun. -/
theorem consistent_left {op : Operation} {e : Fault} (h : l.Consistent stops)
    (hrun : op.run l = .error e) :
    (op.left l).Consistent fun x => stops x + (op.stranded l).count x := by
  cases op with
  | createApplication creator program =>
      have hcreate : l.createApplication creator program = .error e := by
        cases hcreate : l.createApplication creator program with
        | ok created =>
            rw [Operation.run, hcreate] at hrun
            cases hrun
        | error e' =>
            rw [Operation.run, hcreate] at hrun
            cases hrun
            rfl
      rw [Operation.left, Operation.stranded, hcreate]
      obtain ⟨hids, rfl⟩ | ⟨hids, -, rfl⟩ := createApplication_eq_error_iff.mp hcreate
      -- without an id the creation has not begun
      · obtain ⟨-, hsame⟩ | ⟨next, hnext, -⟩ := of_beginCreation l creator
        · rw [hsame]
          exact h
        · have hlt := (nextId_eq_ok_iff.mp hnext).1
          omega
      · exact consistent_beginCreation h hids creator
  | _ => exact h

/-- **RECORDS STAY IN AGREEMENT** with every operation, but for the applications that a creator
    counts whose creation has stopped. -/
theorem consistent_after (h : l.Consistent stops) (op : Operation) :
    (op.after l).Consistent fun x => stops x + (op.stranded l).count x := by
  rw [Operation.after]
  cases hrun : op.run l with
  | ok l' =>
      rw [Operation.stranded_of_run hrun]
      exact consistent_of_run h hrun
  | error e => exact consistent_left h hrun

/-- **RECORDS AGREE WHATEVER WAS DONE**, by induction on the operations. -/
theorem consistent_foldl (h : l.Consistent stops) (ops : List Operation) :
    (ops.foldl Operation.after l).Consistent fun x => stops x + (l.stranded ops).count x := by
  induction ops generalizing l stops with
  | nil => exact h
  | cons op ops ih =>
      have hrest := ih (consistent_after h op)
      simp only [Nat.add_assoc, ← List.count_append] at hrest
      exact hrest

/-- The ledgers in use: new ones, and what any operation makes of one, successful or failing. -/
inductive Reachable : Ledger → Prop where
  | new (settings : LedgerSettings) : Reachable (new settings)
  | step (op : Operation) {l : Ledger} : Reachable l → Reachable (op.after l)

/-- Ledgers in use stay in use, whatever is done to them. -/
theorem reachable_foldl (ops : List Operation) (h : l.Reachable) :
    (ops.foldl Operation.after l).Reachable := by
  induction ops generalizing l with
  | nil => exact h
  | cons op ops ih => exact ih (.step op h)

/-- A ledger in use is consistent with the creations that have stopped. -/
theorem consistent_of_reachable (h : l.Reachable) : ∃ stops, l.Consistent stops := by
  induction h with
  | new settings => exact ⟨_, consistent_new settings⟩
  | step op _ ih =>
      obtain ⟨stops, hl⟩ := ih
      exact ⟨_, consistent_after hl op⟩

/-- The id of an application in use has been handed out. -/
theorem Reachable.id_lt {app : Application} (h : l.Reachable) (happ : l.application id = .ok app) :
    id < l.nextAppId := by
  obtain ⟨stops, hl⟩ := consistent_of_reachable h
  exact hl.appIds id (Table.contains_of_get? (application_eq_ok_iff.mp happ))

/-! ## Records of a ledger in use -/

/-- To be opted in is to have local state. -/
theorem isOptedIn_eq_ok_true_iff : l.isOptedIn id x = .ok true ↔ l.HasLocals id x := by
  simp only [isOptedIn, bind_eq_ok_iff, pure_eq_ok_iff, application_eq_ok_iff, HasLocals]

namespace Consistent

variable (h : l.Consistent stops)

include h

/-- Whoever is listed has a record. -/
theorem isOptedIn_iff (id : UInt64) (x : Address) : l.isOptedIn id x = .ok true ↔
    ∃ a, l.account x = .ok a ∧ a.optedIn.contains id = true := by
  rw [isOptedIn_eq_ok_true_iff, ← h.locals]
  simp only [account_eq_ok_iff]
  constructor
  · intro hlisted
    obtain ⟨a, ha⟩ := Table.contains_eq_true_iff.mp (contains_of_optedIn hlisted)
    exact ⟨a, ha, accountOrFresh_of_get? ha ▸ hlisted⟩
  · rintro ⟨a, ha, hlisted⟩
    rwa [accountOrFresh_of_get? ha]

/-- If no two addresses collide, applications own exactly their addresses. -/
theorem owner_iff
    (hinj : Set.InjOn Address.ofApplication {id | l.applications.contains id = true})
    (x : Address) (id : UInt64) :
    l.owner? x = some id ↔ ∃ app, l.application id = .ok app ∧ app.address = x := by
  simp only [application_eq_ok_iff]
  constructor
  · intro howner
    obtain ⟨hknown, rfl⟩ := h.owner x id howner
    obtain ⟨app, happ⟩ := Table.contains_eq_true_iff.mp hknown
    exact ⟨app, happ, (h.escrow id app happ).1⟩
  · rintro ⟨app, happ, rfl⟩
    have hknown := Table.contains_of_get? happ
    rw [(h.escrow id app happ).1]
    -- somebody owns the address, and nobody else can
    obtain ⟨other, hother⟩ := h.owned id hknown
    obtain ⟨hknown', hsame⟩ := h.owner _ other hother
    rw [hother, hinj hknown hknown' hsame]

/-- Applications and assets have ids, and those in which an account has local state or that it
    holds are among them, so no counter outgrows 64 bits. -/
theorem fits (x : Address) : (l.accountOrFresh x).Fits := by
  have htidy := h.tidy x
  have hopted : (l.accountOrFresh x).optedIn.size ≤ l.nextAppId.toNat := by
    refine Table.size_le_of_forall_lt htidy.optedInOrder fun id hid => ?_
    obtain ⟨app, happ, -⟩ := (h.locals id x).mp hid
    exact h.appIds id (Table.contains_of_get? happ)
  have hheld : (l.accountOrFresh x).holdings.size ≤ l.nextAssetId.toNat :=
    Table.size_le_of_forall_lt htidy.holdingsOrder fun id hid => h.assetIds id (h.held x id hid)
  have hcreated : (l.createdAssets x).length ≤ l.nextAssetId.toNat := calc
    (l.createdAssets x).length ≤ l.assets.values.length := List.length_filter_le ..
    _ = l.assets.size := Table.length_values _
    _ ≤ l.nextAssetId.toNat := Table.size_le_of_forall_lt h.assetsOrder h.assetIds
  have happs := l.nextAppId.toNat_lt
  have hassets := l.nextAssetId.toNat_lt
  refine ⟨Nat.lt_of_le_of_lt (h.issued x) happs, ?_, ?_, ?_⟩
  · rw [htidy.optedIn]
    exact Nat.lt_of_le_of_lt hopted happs
  · rw [(h.counts x).assets]
    exact Nat.lt_of_le_of_lt hcreated hassets
  · rw [htidy.held]
    exact Nat.lt_of_le_of_lt hheld hassets

/-- Accounts count no more than there is exactly when no creation has stopped. -/
theorem forall_counts_iff :
    (∀ x a, l.account x = .ok a → l.Counts 0 x a) ↔ ∀ x, stops x = 0 := by
  constructor
  · intro hexact x
    have hcounts := (h.counts x).apps
    by_cases hx : l.accounts.contains x = true
    · obtain ⟨a, ha⟩ := Table.contains_eq_true_iff.mp hx
      rw [accountOrFresh_of_get? ha, (hexact x a (account_eq_ok_iff.mpr ha)).apps] at hcounts
      omega
    · -- who has no record has created nothing
      rw [accountOrFresh_of_absent (Bool.eq_false_iff.mpr hx)] at hcounts
      exact (Nat.add_eq_zero_iff.mp hcounts.symm).2
  · intro hnone x a ha
    rw [← accountOrFresh_of_get? (account_eq_ok_iff.mp ha), ← hnone x]
    exact h.counts x

/-- The pages of a creator are those of its applications, so a creation stops where these with its
    own do not fit. -/
theorem createApplication_stops_iff (x : Address) (program : Program) :
    l.createApplication x program = .error .pagesExhausted ↔
      l.nextAppId.toNat + 1 < UInt64.size ∧
        UInt64.size ≤ ((l.createdApps x).map pages).sum + program.extraPages.toNat := by
  rw [createApplication_eq_error_iff, (h.counts x).pages]
  simp

end Consistent

/-- The records of a ledger in use agree with each other, but for the applications that a creator
    counts whose creation has stopped.  An account has local state in an application exactly when
    it has a record that lists the application, and then it can be closed out.  Accounts count what
    they list, and what they have created with the creations that have stopped, in 64 bits, and hold
    registered assets.  An application has an account at its address, and owns it if no two addresses collide.
    Ids are below the next one.  Accounts count exactly what they have created when no creation has
    stopped, and only then; one stops where there is an id for it, but the pages of all applications
    of its creator with its own do not fit in 64 bits. -/
theorem records_of_run (settings : LedgerSettings) (ops : List Operation) :
    let l := ops.foldl Operation.after (new settings)
    let stranded := (new settings).stranded ops
    (∀ id x, l.isOptedIn id x = .ok true ↔
      ∃ a, l.account x = .ok a ∧ a.optedIn.contains id = true) ∧
    (∀ id x, l.isOptedIn id x = .ok true → ∃ l', l.closeOut id x = .ok l') ∧
    (∀ x a, l.account x = .ok a → a.Tidy ∧ a.Fits ∧ l.Counts (stranded.count x) x a) ∧
    (∀ x a id, l.account x = .ok a → a.holdings.contains id = true →
      ∃ asset, l.asset id = .ok asset) ∧
    (l.applications.Increasing ∧ l.assets.Increasing) ∧
    (∀ id app, l.application id = .ok app → id < l.nextAppId ∧
      app.address = .ofApplication id ∧ ∃ a, l.account app.address = .ok a) ∧
    (∀ id asset, l.asset id = .ok asset → id < l.nextAssetId) ∧
    (Set.InjOn Address.ofApplication {id | l.applications.contains id = true} →
      ∀ x id, l.owner? x = some id ↔ ∃ app, l.application id = .ok app ∧ app.address = x) ∧
    ((∀ x a, l.account x = .ok a → l.Counts 0 x a) ↔ stranded = []) ∧
    (∀ x program, l.createApplication x program = .error .pagesExhausted ↔
      l.nextAppId.toNat + 1 < UInt64.size ∧
        UInt64.size ≤ ((l.createdApps x).map pages).sum + program.extraPages.toNat) := by
  intro l stranded
  -- every part is read off the invariant at the end of the run
  have hl : l.Consistent fun x => stranded.count x := by
    have h := consistent_foldl (consistent_new settings) ops
    simp only [Nat.zero_add] at h
    exact h
  refine ⟨hl.isOptedIn_iff, ?_, ?_, ?_, ⟨hl.appsOrder, hl.assetsOrder⟩, ?_, ?_, hl.owner_iff, ?_,
    hl.createApplication_stops_iff⟩
  · intro id x hopted
    exact exists_closeOut hl (isOptedIn_eq_ok_true_iff.mp hopted)
  · intro x a ha
    rw [← accountOrFresh_of_get? (account_eq_ok_iff.mp ha)]
    exact ⟨hl.tidy x, hl.fits x, hl.counts x⟩
  · intro x a id ha hheld
    rw [← accountOrFresh_of_get? (account_eq_ok_iff.mp ha)] at hheld
    obtain ⟨asset, hasset⟩ := Table.contains_eq_true_iff.mp (hl.held x id hheld)
    exact ⟨asset, asset_eq_ok_iff.mpr hasset⟩
  · intro id app happ
    have hget := application_eq_ok_iff.mp happ
    obtain ⟨haddress, hknown⟩ := hl.escrow id app hget
    obtain ⟨a, ha⟩ := Table.contains_eq_true_iff.mp hknown
    exact ⟨hl.appIds id (Table.contains_of_get? hget), haddress, a, account_eq_ok_iff.mpr ha⟩
  · intro id asset hasset
    exact hl.assetIds id (Table.contains_of_get? (asset_eq_ok_iff.mp hasset))
  · rw [hl.forall_counts_iff, List.eq_nil_iff_forall_not_mem]
    exact forall_congr' fun x => List.count_eq_zero

/-- Two applications, one of which has created the other, an asset, an account that is opted in to
    the second application and was refused a close-out of the first, and a creation that stops. -/
def settled : List Operation :=
  [.createApplication .zero { extraPages := 2 },
    .createApplication (.ofApplication 1001) {},
    .optIn 1002 .zero,
    .createAsset .zero {},
    .closeOut 1001 .zero,
    .createApplication .zero { extraPages := 18446744073709551615 }]

/-- Counters agree with the records, but for one creation that the first creator counts as well, and
    the second application owns its address. -/
theorem records_of_run_settled :
    let l := settled.foldl Operation.after (new {})
    (∃ a, l.account .zero = .ok a ∧ a.optedIn.contains 1002 = true ∧ l.Counts 1 .zero a) ∧
      l.owner? (.ofApplication 1002) = some 1002 ∧
      (∃ a, l.account (.ofApplication 1001) = .ok a ∧ l.Counts 0 (.ofApplication 1001) a) := by
  intro l
  obtain ⟨hlocals, -, hcounts, -, -, hcreated, -, howned, -, -⟩ := records_of_run {} settled
  have hopted : l.isOptedIn 1002 .zero = .ok true := by decide +kernel
  have happ : l.applications.contains 1001 = true ∧ l.applications.contains 1002 = true := by
    decide +kernel
  have hstranded : (new {}).stranded settled = [.zero] := by decide +kernel
  have hdistinct : (l.applications.keys.map Address.ofApplication).Nodup := by
    decide +kernel
  have hinj : Set.InjOn Address.ofApplication {id | l.applications.contains id = true} := by
    intro id hid other hother
    exact List.inj_on_of_nodup_map hdistinct (Table.mem_keys_iff.mpr hid)
      (Table.mem_keys_iff.mpr hother)
  refine ⟨?_, ?_, ?_⟩
  · obtain ⟨a, ha, hlisted⟩ := (hlocals 1002 .zero).mp hopted
    have hcount := (hcounts .zero a ha).2.2
    rw [hstranded] at hcount
    exact ⟨a, ha, hlisted, hcount⟩
  · rw [howned hinj]
    obtain ⟨app, happ⟩ := Table.contains_eq_true_iff.mp happ.2
    rw [← application_eq_ok_iff] at happ
    exact ⟨app, happ, (hcreated 1002 app happ).2.1⟩
  · obtain ⟨app, happ⟩ := Table.contains_eq_true_iff.mp happ.1
    rw [← application_eq_ok_iff] at happ
    obtain ⟨-, haddress, a, ha⟩ := hcreated 1001 app happ
    rw [haddress] at ha
    have hcount := (hcounts _ a ha).2.2
    rw [hstranded, List.count_eq_zero.mpr (by decide +kernel)] at hcount
    exact ⟨a, ha, hcount⟩

/-- Two creations by one account, each with as many pages as fit in 64 bits. -/
def oversized : List Operation :=
  [.createApplication .zero { extraPages := 18446744073709551615 },
    .createApplication .zero { extraPages := 18446744073709551615 }]

/-- The second one takes an id and is counted, but there is no second application, and the ids go
    on behind it. -/
theorem oversized_miscounted :
    let l := oversized.foldl Operation.after (new {})
    (∃ a, l.account .zero = .ok a ∧ a.appsCreated = 2 ∧
        a.extraPages = 18446744073709551615 ∧ ¬l.Counts 0 .zero a) ∧
      (l.createdApps .zero).length = 1 ∧ l.nextAppId = 1003 := by
  intro l
  have hknown : l.accounts.contains .zero = true := by decide +kernel
  have hcounted : (l.accountOrFresh .zero).appsCreated = 2 ∧
      (l.accountOrFresh .zero).extraPages = 18446744073709551615 := by decide +kernel
  have hcreated : (l.createdApps .zero).length = 1 ∧ l.nextAppId = 1003 := by decide +kernel
  obtain ⟨a, ha⟩ := Table.contains_eq_true_iff.mp hknown
  rw [accountOrFresh_of_get? ha] at hcounted
  refine ⟨⟨a, account_eq_ok_iff.mpr ha, hcounted.1, hcounted.2, ?_⟩, hcreated⟩
  intro h
  have happs := h.apps
  rw [hcounted.1, hcreated.1] at happs
  omega

end Ledger

end AvmSandbox
