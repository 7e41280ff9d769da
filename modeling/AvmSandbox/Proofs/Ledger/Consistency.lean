import AvmSandbox.Proofs.Ledger.Records
import Mathlib.Algebra.BigOperators.Group.List.Basic
import Mathlib.Algebra.Ring.Nat

/-! # Consistency — when the records of a ledger agree with each other

    The ledger keeps some facts twice: an opt-in stands in the application and
    in the account, and accounts count what other records list.  Here is what it
    means that the places agree, and which changes of a single record keep them
    in agreement.  There is one place where they may part: an account goes on to
    count applications whose creation has stopped.

    * `Account.Tidy` and `Ledger.Counted`: accounts count what they list, and what
      they have created, with the creations that have stopped;
    * `Account.Fits`: counters fit in 64 bits;
    * `Ledger.Registered`: ids, addresses and owners of applications agree;
    * `Ledger.Consistent`: moreover opt-ins stand on both sides;
    * `Consistent.updateAccount`, `Consistent.withApplication`: another record of an
      account or of an application;
    * `Consistent.withApplication_updateAccount`: both, for an opt-in and its end. -/

namespace AvmSandbox

/-! ## Accounts by themselves -/

/-- Whether an account lists nothing twice and counts what it lists. -/
structure Account.Tidy (a : Account) : Prop where
  optedInOrder : a.optedIn.Increasing
  holdingsOrder : a.holdings.Increasing
  optedIn : a.appsOptedIn = a.optedIn.size
  held : a.assetsHeld = a.holdings.size

/-- Whether the counters of an account fit in 64 bits. -/
structure Account.Fits (a : Account) : Prop where
  appsCreated : a.appsCreated < UInt64.size
  appsOptedIn : a.appsOptedIn < UInt64.size
  assetsCreated : a.assetsCreated < UInt64.size
  assetsHeld : a.assetsHeld < UInt64.size

namespace Ledger

variable {l l' : Ledger} {id : UInt64} {x : Address} {app app' : Application} {stopped : Nat}
  {stops : Address → Nat}

theorem tidy_freshAccount (l : Ledger) (x : Address) : (l.freshAccount x).Tidy :=
  ⟨Table.increasing_empty, Table.increasing_empty, rfl, rfl⟩

/-! ## What an account has created -/

/-- The applications that an account has created. -/
def createdApps (l : Ledger) (x : Address) : List Application :=
  l.applications.values.filter fun app => app.creator = x

/-- The assets that an account has created. -/
def createdAssets (l : Ledger) (x : Address) : List Asset :=
  l.assets.values.filter fun asset => asset.creator = x

/-- The extra program pages of an application. -/
def pages (app : Application) : Nat := app.program.extraPages.toNat

/-- Whether an account counts what it has created, and beside its applications those whose
    creation has stopped. -/
structure Counts (l : Ledger) (stopped : Nat) (x : Address) (a : Account) : Prop where
  apps : a.appsCreated = (l.createdApps x).length + stopped
  pages : a.extraPages.toNat = ((l.createdApps x).map Ledger.pages).sum
  assets : a.assetsCreated = (l.createdAssets x).length

/-- The counts are right where the pages of the applications and the number of the assets are. -/
theorem counts_of_perm {a : Account} {ps : List Nat}
    (hps : ((l.createdApps x).map pages).Perm ps) (happs : a.appsCreated = ps.length + stopped)
    (hpages : a.extraPages.toNat = ps.sum)
    (hassets : a.assetsCreated = (l.createdAssets x).length) : l.Counts stopped x a where
  apps := by rw [happs, ← hps.length_eq, List.length_map]
  pages := by rw [hpages, hps.sum_eq]
  assets := hassets

/-- An application that keeps creator and program stays one of those its creator has created. -/
theorem perm_pages_of_overwrite (horder : l.applications.Increasing)
    (hget : l.applications.get? id = some app) (hcreator : app'.creator = app.creator)
    (hprogram : app'.program = app.program)
    (hl' : l'.applications = l.applications.insert id app') (x : Address) :
    ((l'.createdApps x).map pages).Perm ((l.createdApps x).map pages) := by
  obtain ⟨rest, hbefore, hafter⟩ := Table.exists_values_insert horder hget app'
  have hpages : pages app' = pages app := by rw [pages, pages, hprogram]
  rw [createdApps, createdApps, hl']
  refine ((hafter.filter _).map pages).trans (.trans ?_ ((hbefore.filter _).map pages).symm)
  by_cases hx : app.creator = x
  · rw [List.filter_cons_of_pos (by simpa [hcreator] using hx),
      List.filter_cons_of_pos (by simpa using hx), List.map_cons, List.map_cons, hpages]
  · rw [List.filter_cons_of_neg (by simpa [hcreator] using hx),
      List.filter_cons_of_neg (by simpa using hx)]

/-- A new application is one more that its creator has created. -/
theorem perm_pages_of_new (hnew : l.applications.contains id = false)
    (hl' : l'.applications = l.applications.insert id app) (hcreator : app.creator = x)
    (y : Address) :
    ((l'.createdApps y).map pages).Perm
      (if y = x then pages app :: (l.createdApps y).map pages
        else (l.createdApps y).map pages) := by
  rw [createdApps, createdApps, hl']
  refine (((Table.values_insert_of_absent app hnew).filter _).map pages).trans ?_
  by_cases hy : y = x
  · rw [if_pos hy, List.filter_cons_of_pos (by simpa [hcreator] using hy.symm), List.map_cons]
  · rw [if_neg hy, List.filter_cons_of_neg (by simpa [hcreator] using Ne.symm hy)]

theorem length_createdAssets_of_overwrite {a b : Asset} (horder : l.assets.Increasing)
    (hget : l.assets.get? id = some a) (hcreator : b.creator = a.creator)
    (hl' : l'.assets = l.assets.insert id b) (x : Address) :
    (l'.createdAssets x).length = (l.createdAssets x).length := by
  obtain ⟨rest, hbefore, hafter⟩ := Table.exists_values_insert horder hget b
  rw [createdAssets, createdAssets, hl', (hafter.filter _).length_eq,
    (hbefore.filter _).length_eq]
  by_cases hx : a.creator = x
  · rw [List.filter_cons_of_pos (by simpa [hcreator] using hx),
      List.filter_cons_of_pos (by simpa using hx), List.length_cons, List.length_cons]
  · rw [List.filter_cons_of_neg (by simpa [hcreator] using hx),
      List.filter_cons_of_neg (by simpa using hx)]

theorem length_createdAssets_of_new {a : Asset} (hnew : l.assets.contains id = false)
    (hl' : l'.assets = l.assets.insert id a) (hcreator : a.creator = x) (y : Address) :
    (l'.createdAssets y).length =
      if y = x then (l.createdAssets y).length + 1 else (l.createdAssets y).length := by
  rw [createdAssets, createdAssets, hl',
    ((Table.values_insert_of_absent a hnew).filter _).length_eq]
  by_cases hy : y = x
  · rw [if_pos hy, List.filter_cons_of_pos (by simpa [hcreator] using hy.symm), List.length_cons]
  · rw [if_neg hy, List.filter_cons_of_neg (by simpa [hcreator] using Ne.symm hy)]

/-! ## The invariant -/

/-- Whether accounts count what they list and what they have created, for which there have been
    ids, and hold assets that there are. -/
structure Counted (l : Ledger) (stops : Address → Nat) : Prop where
  tidy : ∀ x, (l.accountOrFresh x).Tidy
  counts : ∀ x, l.Counts (stops x) x (l.accountOrFresh x)
  issued : ∀ x, (l.accountOrFresh x).appsCreated ≤ l.nextAppId.toNat
  held : ∀ x id, (l.accountOrFresh x).holdings.contains id = true → l.assets.contains id = true
  appsOrder : l.applications.Increasing
  assetsOrder : l.assets.Increasing

/-- Whether ids are below the next ones, and applications own the accounts at their addresses. -/
structure Registered (l : Ledger) : Prop where
  appIds : ∀ id, l.applications.contains id = true → id < l.nextAppId
  assetIds : ∀ id, l.assets.contains id = true → id < l.nextAssetId
  escrow : ∀ id app, l.applications.get? id = some app →
    app.address = .ofApplication id ∧ l.accounts.contains app.address = true
  owned : ∀ id, l.applications.contains id = true →
    ∃ other, l.owner? (.ofApplication id) = some other
  owner : ∀ x id, l.owner? x = some id → l.applications.contains id = true ∧ x = .ofApplication id

/-- Whether an account has local state in an application. -/
def HasLocals (l : Ledger) (id : UInt64) (x : Address) : Prop :=
  ∃ app, l.applications.get? id = some app ∧ app.locals.contains x = true

/-- Whether, moreover, accounts list exactly the applications in which they have local state. -/
structure Consistent (l : Ledger) (stops : Address → Nat) : Prop
    extends Counted l stops, Registered l where
  locals : ∀ id x, (l.accountOrFresh x).optedIn.contains id = true ↔ l.HasLocals id x

theorem consistent_new (settings : LedgerSettings) : (new settings).Consistent fun _ => 0 where
  tidy x := tidy_freshAccount _ x
  counts _ := ⟨rfl, rfl, rfl⟩
  issued _ := Nat.zero_le _
  held _ _ h := by cases h
  appsOrder := Table.increasing_empty
  assetsOrder := Table.increasing_empty
  appIds _ h := by cases h
  assetIds _ h := by cases h
  escrow _ _ h := by cases h
  owned _ h := by cases h
  owner _ _ h := by cases h
  locals _ _ := by
    constructor
    · intro h
      cases h
    · rintro ⟨_, h, -⟩
      cases h

/-! ## Ledgers that differ in one account -/

/-- Whether accounts are seen as in another ledger, but for one. -/
def Seen (l : Ledger) (x : Address) (a : Account) (l' : Ledger) : Prop :=
  ∀ y, l'.accountOrFresh y = if y = x then a else l.accountOrFresh y

theorem seen_updateAccount (l : Ledger) (x : Address) (f : Account → Account) :
    l.Seen x (f (l.accountOrFresh x)) (l.updateAccount x f) := accountOrFresh_updateAccount l x f

namespace Seen

variable {a : Account} {P : Address → Account → Prop}

/-- What holds of one account and of all others holds of all. -/
theorem forall_of (h : l.Seen x a l') (hx : P x a)
    (hothers : ∀ y, y ≠ x → P y (l.accountOrFresh y)) :
    ∀ y, P y (l'.accountOrFresh y) := by
  intro y
  rw [h y]
  by_cases hy : y = x
  · rw [if_pos hy, hy]
    exact hx
  · rw [if_neg hy]
    exact hothers y hy

/-- Opt-ins stay where they were. -/
theorem locals (h : l.Seen x a l') (hl : l.Consistent stops)
    (hopted : ∀ id, a.optedIn.contains id = (l.accountOrFresh x).optedIn.contains id)
    (hlocals : ∀ id y, l'.HasLocals id y ↔ l.HasLocals id y) (id : UInt64) (y : Address) :
    (l'.accountOrFresh y).optedIn.contains id = true ↔ l'.HasLocals id y := by
  refine h.forall_of (P := fun y a => a.optedIn.contains id = true ↔ l'.HasLocals id y) ?_ ?_ y
  · rw [hopted, hlocals]
    exact hl.locals id x
  · intro y _
    rw [hlocals]
    exact hl.locals id y

end Seen

/-- An account may be changed that stays tidy, counts right and holds assets that there are. -/
theorem Counted.updateAccount (h : l.Counted stops) {f : Account → Account}
    (htidy : (f (l.accountOrFresh x)).Tidy) (hcounts : l.Counts (stops x) x (f (l.accountOrFresh x)))
    (hheld : ∀ id, (f (l.accountOrFresh x)).holdings.contains id = true →
      l.assets.contains id = true) : (l.updateAccount x f).Counted stops := by
  have hseen := seen_updateAccount l x f
  refine ⟨?_, ?_, ?_, ?_, h.appsOrder, h.assetsOrder⟩
  · exact hseen.forall_of (P := fun _ a => a.Tidy) htidy fun y _ => h.tidy y
  · refine hseen.forall_of (P := fun y => (l.updateAccount x f).Counts (stops y) y) ?_ fun y _ => ?_
    · exact ⟨hcounts.apps, hcounts.pages, hcounts.assets⟩
    · exact ⟨(h.counts y).apps, (h.counts y).pages, (h.counts y).assets⟩
  · refine hseen.forall_of (P := fun _ a => a.appsCreated ≤ l.nextAppId.toNat) ?_ fun y _ => h.issued y
    rw [hcounts.apps, ← (h.counts x).apps]
    exact h.issued x
  · exact hseen.forall_of (P := fun _ a => ∀ id, a.holdings.contains id = true →
      l.assets.contains id = true) hheld fun y _ => h.held y

/-- Accounts that are changed stay or come into being. -/
theorem Registered.updateAccount (h : l.Registered) (x : Address) (f : Account → Account) :
    (l.updateAccount x f).Registered where
  appIds := h.appIds
  assetIds := h.assetIds
  owned := h.owned
  owner := h.owner
  escrow id app hget := by
    obtain ⟨haddress, hknown⟩ := h.escrow id app hget
    exact ⟨haddress, (contains_updateAccount l x f _).mpr (.inr hknown)⟩

/-- An account may be changed that keeps its opt-ins and what it has created, stays tidy and holds
    assets that there are. -/
theorem Consistent.updateAccount (h : l.Consistent stops) {f : Account → Account}
    (htidy : (f (l.accountOrFresh x)).Tidy) (hcounts : l.Counts (stops x) x (f (l.accountOrFresh x)))
    (hheld : ∀ id, (f (l.accountOrFresh x)).holdings.contains id = true →
      l.assets.contains id = true)
    (hopted : ∀ id, (f (l.accountOrFresh x)).optedIn.contains id
      = (l.accountOrFresh x).optedIn.contains id) : (l.updateAccount x f).Consistent stops where
  toCounted := h.toCounted.updateAccount htidy hcounts hheld
  toRegistered := h.toRegistered.updateAccount x f
  locals := (seen_updateAccount l x f).locals h hopted fun _ _ => Iff.rfl

/-! ## Ledgers that differ in one application -/

/-- What an application keeps from its creation on. -/
def origin (app : Application) : Address × Address × Program :=
  (app.address, app.creator, app.program)

section withApplication

variable (hget : l.applications.get? id = some app) (horigin : origin app' = origin app)

include hget horigin

theorem Counts.withApplication {a : Account} (horder : l.applications.Increasing)
    (h : l.Counts stopped x a) : (l.withApplication id app').Counts stopped x a := by
  simp only [origin, Prod.mk.injEq] at horigin
  obtain ⟨-, hcreator, hprogram⟩ := horigin
  refine counts_of_perm (perm_pages_of_overwrite horder hget hcreator hprogram rfl x) ?_ h.pages
    h.assets
  rw [List.length_map]
  exact h.apps

theorem Counted.withApplication (h : l.Counted stops) : (l.withApplication id app').Counted stops where
  tidy := h.tidy
  counts x := (h.counts x).withApplication hget horigin h.appsOrder
  issued := h.issued
  held := h.held
  appsOrder := Table.increasing_insert h.appsOrder id app'
  assetsOrder := h.assetsOrder

theorem Registered.withApplication (h : l.Registered) : (l.withApplication id app').Registered := by
  simp only [origin, Prod.mk.injEq] at horigin
  have hknown : ∀ other, (l.withApplication id app').applications.contains other
      = l.applications.contains other :=
    Table.contains_insert_of_contains app' (Table.contains_of_get? hget)
  refine ⟨?_, h.assetIds, ?_, ?_, ?_⟩
  · intro other hother
    exact h.appIds other (hknown other ▸ hother)
  · intro other found hfound
    rw [get?_withApplication] at hfound
    by_cases hother : other = id
    · rw [if_pos hother] at hfound
      cases hfound
      rw [hother, horigin.1]
      exact h.escrow id app hget
    · rw [if_neg hother] at hfound
      exact h.escrow other found hfound
  · intro other hother
    exact h.owned other (hknown other ▸ hother)
  · intro x other howner
    rw [hknown]
    exact h.owner x other howner

/-- An application may be changed that keeps its origin and the accounts that have local state. -/
theorem Consistent.withApplication (h : l.Consistent stops)
    (hlocals : ∀ x, app'.locals.contains x = app.locals.contains x) :
    (l.withApplication id app').Consistent stops := by
  refine { toCounted := h.toCounted.withApplication hget horigin
           toRegistered := h.toRegistered.withApplication hget horigin
           locals := ?_ }
  intro other x
  refine (h.locals other x).trans ?_
  simp only [HasLocals, get?_withApplication]
  by_cases hother : other = id
  · simp [hother, hget, hlocals]
  · simp [hother]

/-- The record of an application and that of an account may be changed together, where the one
    has local state exactly when the other lists it. -/
theorem Consistent.withApplication_updateAccount (h : l.Consistent stops) {f : Account → Account}
    (htidy : (f (l.accountOrFresh x)).Tidy) (hcounts : l.Counts (stops x) x (f (l.accountOrFresh x)))
    (hheld : (f (l.accountOrFresh x)).holdings = (l.accountOrFresh x).holdings)
    (hhere : (f (l.accountOrFresh x)).optedIn.contains id = app'.locals.contains x)
    (hopted : ∀ other, other ≠ id → (f (l.accountOrFresh x)).optedIn.contains other
      = (l.accountOrFresh x).optedIn.contains other)
    (hlocals : ∀ y, y ≠ x → app'.locals.contains y = app.locals.contains y) :
    ((l.withApplication id app').updateAccount x f).Consistent stops := by
  refine { toCounted := (h.toCounted.withApplication hget horigin).updateAccount htidy
             (hcounts.withApplication hget horigin h.appsOrder) ?_
           toRegistered := (h.toRegistered.withApplication hget horigin).updateAccount x f
           locals := ?_ }
  · intro other hother
    exact h.held x other (hheld ▸ hother)
  · intro other y
    have hbefore := h.locals other y
    have hafter : ((l.withApplication id app').updateAccount x f).HasLocals other y ↔
        if other = id then app'.locals.contains y = true else l.HasLocals other y := by
      show (∃ found, (l.withApplication id app').applications.get? other = some found ∧ _) ↔ _
      simp only [get?_withApplication]
      by_cases hother : other = id
      · simp [hother]
      · simp [hother, HasLocals]
    rw [hafter, seen_updateAccount (l.withApplication id app') x f]
    by_cases hother : other = id
    · subst hother
      rw [if_pos rfl]
      by_cases hy : y = x
      · rw [if_pos hy, hy, ← hhere]
        rfl
      · rw [if_neg hy, hlocals y hy]
        refine hbefore.trans ?_
        simp [HasLocals, hget]
    · rw [if_neg hother]
      by_cases hy : y = x
      · subst hy
        rw [if_pos rfl]
        exact (congrArg (· = true) (hopted other hother)).to_iff.trans hbefore
      · rw [if_neg hy]
        exact hbefore

end withApplication

end Ledger

end AvmSandbox
