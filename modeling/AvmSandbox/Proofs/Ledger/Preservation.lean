import AvmSandbox.Proofs.Ledger.Consistency
import AvmSandbox.Proofs.Ledger.Effects

/-! # Preservation — what each operation does to the records of a ledger

    Most operations change several records of a ledger, one after the other, and
    nothing is taken back.  All but one are refused before their first change or
    make all their changes, and then the records agree as before.  The exception
    is the creation of an application, which takes an id and counts the
    application before it adds up the pages of the creator: where their sum does
    not fit in 64 bits, it stops half-way.

    * `consistent_createApplication`, `consistent_beginCreation`: a creation, and one
      that stops;
    * `consistent_createAsset`, `consistent_optIn`, `consistent_closeOut` and the
      others: one lemma for each operation;
    * `exists_closeOut`: a close-out is refused before it changes anything;
    * `consistent_applyEffects`: the effects of an inner transaction. -/

namespace AvmSandbox

namespace Ledger

variable {l l' : Ledger} {id : UInt64} {x : Address} {stops : Address → Nat}

/-! ## New applications -/

section createApplication

variable {creator : Address} {program : Program}
  (h : l.Consistent stops) (hrun : l.createApplication creator program = .ok (id, l'))

include h hrun

/-- The id of a new application is that of none before, because all are below the next one. -/
theorem absent_of_createApplication : l.applications.contains id = false := by
  obtain ⟨rfl, -⟩ := of_createApplication hrun
  rw [Bool.eq_false_iff]
  intro hcontains
  exact UInt64.lt_irrefl _ (h.appIds _ hcontains)

omit h in
/-- The creator counts one application and its pages more, and its account is the only one seen to
    change. -/
theorem seen_createApplication :
    ∃ pages, pages.toNat = (l.accountOrFresh creator).extraPages.toNat + program.extraPages.toNat ∧
      l.Seen creator (countApp pages (l.accountOrFresh creator)) l' := by
  obtain ⟨-, next, pages, -, hpages, rfl⟩ := of_createApplication hrun
  refine ⟨pages, toNat_of_addOr hpages, ?_⟩
  intro y
  show ((l.updateAccount creator (countApp pages)).ensureAccount _).accountOrFresh y = _
  rw [accountOrFresh_ensureAccount, accountOrFresh_updateAccount]

/-- The creator counts the new application, and the sum of its pages fits. -/
theorem counted_createApplication : l'.Counted stops := by
  obtain ⟨pages, hpages, hseen⟩ := seen_createApplication hrun
  have hnew := absent_of_createApplication h hrun
  obtain ⟨hid, next, _, hnext, -, rfl⟩ := of_createApplication hrun
  refine ⟨?_, ?_, ?_, ?_, Table.increasing_insert h.appsOrder id _, h.assetsOrder⟩
  · have htidy := h.tidy creator
    refine hseen.forall_of (P := fun _ a => a.Tidy) ?_ fun y _ => h.tidy y
    exact ⟨htidy.optedInOrder, htidy.holdingsOrder, htidy.optedIn, htidy.held⟩
  · refine hseen.forall_of ?_ fun y hy => ?_
    · have hcounts := h.counts creator
      refine counts_of_perm (perm_pages_of_new (x := creator) hnew rfl rfl creator) ?_ ?_
        hcounts.assets
      · rw [if_pos rfl, List.length_cons, List.length_map, Nat.add_right_comm]
        exact congrArg (· + 1) hcounts.apps
      · rw [if_pos rfl, List.sum_cons, Nat.add_comm, ← hcounts.pages]
        exact hpages
    · have hcounts := h.counts y
      refine counts_of_perm (perm_pages_of_new (x := creator) hnew rfl rfl y) ?_ ?_ hcounts.assets
      · rw [if_neg hy, List.length_map]
        exact hcounts.apps
      · rw [if_neg hy]
        exact hcounts.pages
  · have hnext := toNat_of_nextId hnext
    refine hseen.forall_of (P := fun _ a => a.appsCreated ≤ next.toNat) ?_ fun y _ => ?_
    · rw [hnext, hid]
      exact Nat.succ_le_succ (h.issued creator)
    · rw [hnext, hid]
      exact Nat.le_succ_of_le (h.issued y)
  · exact hseen.forall_of (P := fun _ a => ∀ id, a.holdings.contains id = true →
      l.assets.contains id = true) (h.held creator) fun y _ => h.held y

/-- The new application owns the account at its address. -/
theorem registered_createApplication : l'.Registered := by
  obtain ⟨hid, next, pages, hnext, -, rfl⟩ := of_createApplication hrun
  have hlt := lt_of_nextId hnext
  have hget : ∀ other, (l.applications.insert id (.new id creator program)).get? other =
      if other = id then some (.new id creator program) else l.applications.get? other :=
    fun other => Table.get?_insert ..
  have hcontains := Table.contains_insert l.applications id (.new id creator program)
  have howner : ∀ x, (l.owners.insert (.ofApplication id) id).get? x =
      if x = .ofApplication id then some id else l.owners.get? x := fun x => Table.get?_insert ..
  -- accounts are only added
  have hknown : ∀ y, y = .ofApplication id ∨ l.accounts.contains y = true →
      ((l.updateAccount creator (countApp pages)).ensureAccount
        (.ofApplication id)).accounts.contains y = true := by
    intro y hy
    rw [Ledger.ensureAccount, contains_updateAccount, contains_updateAccount]
    exact hy.imp_right .inr
  refine ⟨?_, h.assetIds, ?_, ?_, ?_⟩
  · intro other hother
    rcases (hcontains other).mp hother with rfl | hother
    · exact hlt
    · exact UInt64.lt_trans (hid ▸ h.appIds other hother) hlt
  · intro other found hfound
    rw [hget] at hfound
    by_cases hother : other = id
    · rw [if_pos hother] at hfound
      cases hfound
      exact ⟨congrArg Address.ofApplication hother.symm, hknown _ (.inl rfl)⟩
    · rw [if_neg hother] at hfound
      obtain ⟨haddress, hfound⟩ := h.escrow other found hfound
      exact ⟨haddress, hknown _ (.inr hfound)⟩
  · intro other hother
    show ∃ owner, (l.owners.insert (.ofApplication id) id).get? _ = some owner
    rw [howner]
    -- an address that collides with the new one has a new owner
    by_cases hsame : Address.ofApplication other = .ofApplication id
    · exact ⟨id, if_pos hsame⟩
    · rw [if_neg hsame]
      rcases (hcontains other).mp hother with rfl | hother
      · exact absurd rfl hsame
      · exact h.owned other hother
  · intro x other hother
    have hother := (howner x).symm.trans hother
    by_cases hx : x = .ofApplication id
    · rw [if_pos hx] at hother
      cases hother
      exact ⟨(hcontains id).mpr (.inl rfl), hx⟩
    · rw [if_neg hx] at hother
      obtain ⟨hold, hx⟩ := h.owner x other hother
      exact ⟨(hcontains other).mpr (.inr hold), hx⟩

/-- **A NEW APPLICATION** leaves the records in agreement.  Nobody is opted in to it yet. -/
theorem consistent_createApplication : l'.Consistent stops := by
  obtain ⟨pages, -, hseen⟩ := seen_createApplication hrun
  refine { toCounted := counted_createApplication h hrun
           toRegistered := registered_createApplication h hrun
           locals := hseen.locals h (fun _ => rfl) ?_ }
  have hnew := absent_of_createApplication h hrun
  obtain ⟨-, next, _, -, -, rfl⟩ := of_createApplication hrun
  intro other y
  show (∃ found, (l.applications.insert id _).get? other = some found ∧ _) ↔ _
  rw [Table.get?_insert]
  by_cases hother : other = id
  · -- a new application has no local state
    rw [if_pos hother, hother, HasLocals, Table.contains_eq_false_iff.mp hnew]
    constructor
    · rintro ⟨found, hfound, hlocals⟩
      cases hfound
      cases hlocals
    · rintro ⟨found, hfound, -⟩
      cases hfound
  · rw [if_neg hother]
    rfl

end createApplication

/-- Behind a creation that has begun, its creator counts one application more than there are. -/
theorem consistent_beginCreation (h : l.Consistent stops) (hids : l.nextAppId.toNat + 1 < UInt64.size)
    (creator : Address) :
    (l.beginCreation creator).Consistent fun y => stops y + [creator].count y := by
  obtain ⟨hnone, -⟩ | ⟨next, hnext, hl'⟩ := of_beginCreation l creator
  · omega
  rw [hl']
  let count (a : Account) : Account := countApp a.extraPages a
  have hseen : l.Seen creator (count (l.accountOrFresh creator))
      { l.updateAccount creator count with nextAppId := next } :=
    seen_updateAccount l creator count
  have htidy := h.tidy creator
  have hregistered := h.toRegistered.updateAccount creator count
  refine {
    tidy := hseen.forall_of (P := fun _ a => a.Tidy)
      ⟨htidy.optedInOrder, htidy.holdingsOrder, htidy.optedIn, htidy.held⟩ fun y _ => h.tidy y
    counts := hseen.forall_of ?_ fun y hy => ?_
    issued := hseen.forall_of (P := fun _ a => a.appsCreated ≤ next.toNat) ?_ fun y _ => ?_
    held := hseen.forall_of (P := fun _ a => ∀ id, a.holdings.contains id = true →
      l.assets.contains id = true) (h.held creator) fun y _ => h.held y
    appsOrder := h.appsOrder
    assetsOrder := h.assetsOrder
    appIds := fun id hid => UInt64.lt_trans (h.appIds id hid) (lt_of_nextId hnext)
    assetIds := h.assetIds
    escrow := hregistered.escrow
    owned := h.owned
    owner := h.owner
    locals := hseen.locals h (fun _ => rfl) fun _ _ => Iff.rfl }
  · have hcounts := h.counts creator
    refine ⟨?_, hcounts.pages, hcounts.assets⟩
    rw [List.count_singleton_self, ← Nat.add_assoc]
    exact congrArg (· + 1) hcounts.apps
  · have hcounts := h.counts y
    refine ⟨?_, hcounts.pages, hcounts.assets⟩
    rw [List.count_singleton, if_neg (by simpa using Ne.symm hy)]
    exact hcounts.apps
  · rw [toNat_of_nextId hnext]
    exact Nat.succ_le_succ (h.issued creator)
  · rw [toNat_of_nextId hnext]
    exact Nat.le_succ_of_le (h.issued y)

/-! ## New assets -/

section createAsset

variable {creator : Address} {params : AssetParams}
  (h : l.Consistent stops) (hrun : l.createAsset creator params = .ok (id, l'))

include h hrun

/-- The id of a new asset is that of none before. -/
theorem absent_of_createAsset : l.assets.contains id = false := by
  obtain ⟨rfl, -⟩ := of_createAsset hrun
  rw [Bool.eq_false_iff]
  intro hcontains
  exact UInt64.lt_irrefl _ (h.assetIds _ hcontains)

/-- Nobody holds an asset that is not there yet, so its creator holds one asset more. -/
theorem tidy_holdNew : (holdNew id params (l.accountOrFresh creator)).Tidy := by
  have hnew := absent_of_createAsset h hrun
  have htidy := h.tidy creator
  have hnot : (l.accountOrFresh creator).holdings.contains id = false := by
    rw [Bool.eq_false_iff]
    intro hheld
    rw [h.held creator id hheld] at hnew
    cases hnew
  refine ⟨htidy.optedInOrder, Table.increasing_insert htidy.holdingsOrder id _, htidy.optedIn, ?_⟩
  show (l.accountOrFresh creator).assetsHeld + 1 = _
  rw [htidy.held]
  exact (Table.size_insert_of_absent _ hnot).symm

/-- **A NEW ASSET** leaves the records in agreement.  Its creator is the only one to hold it. -/
theorem consistent_createAsset : l'.Consistent stops := by
  have hnew := absent_of_createAsset h hrun
  have htidy := tidy_holdNew h hrun
  obtain ⟨hid, next, hnext, rfl⟩ := of_createAsset hrun
  have hlt := lt_of_nextId hnext
  have hseen : l.Seen creator (holdNew id params (l.accountOrFresh creator))
      { l.updateAccount creator (holdNew id params) with
        nextAssetId := next
        assets := l.assets.insert id ⟨id, creator, params⟩ } :=
    seen_updateAccount l creator (holdNew id params)
  -- the new asset is one that there is from now on
  have hassets := Table.contains_insert l.assets id ⟨id, creator, params⟩
  have hregistered := h.toRegistered.updateAccount creator (holdNew id params)
  refine {
    tidy := hseen.forall_of (P := fun _ a => a.Tidy) htidy fun y _ => h.tidy y
    counts := hseen.forall_of ?_ fun y hy => ?_
    issued := hseen.forall_of (P := fun _ a => a.appsCreated ≤ l.nextAppId.toNat)
      (h.issued creator) fun y _ => h.issued y
    held := hseen.forall_of (P := fun _ a => ∀ other, a.holdings.contains other = true →
      (l.assets.insert id ⟨id, creator, params⟩).contains other = true) ?_ ?_
    appsOrder := h.appsOrder
    assetsOrder := Table.increasing_insert h.assetsOrder id _
    appIds := h.appIds
    assetIds := ?_
    escrow := hregistered.escrow
    owned := h.owned
    owner := h.owner
    locals := hseen.locals h (fun _ => rfl) fun _ _ => Iff.rfl }
  · have hcounts := h.counts creator
    refine ⟨hcounts.apps, hcounts.pages, ?_⟩
    rw [length_createdAssets_of_new (x := creator) hnew rfl rfl, if_pos rfl]
    exact congrArg (· + 1) hcounts.assets
  · have hcounts := h.counts y
    refine ⟨hcounts.apps, hcounts.pages, ?_⟩
    rw [length_createdAssets_of_new (x := creator) hnew rfl rfl, if_neg hy]
    exact hcounts.assets
  · intro other hother
    rcases (Table.contains_insert ..).mp hother with rfl | hother
    · exact (hassets other).mpr (.inl rfl)
    · exact (hassets other).mpr (.inr (h.held creator other hother))
  · intro y _ other hother
    exact (hassets other).mpr (.inr (h.held y other hother))
  · intro other hother
    rcases (hassets other).mp hother with rfl | hother
    · exact hlt
    · exact UInt64.lt_trans (hid ▸ h.assetIds other hother) hlt

end createAsset

/-! ## Opt-ins -/

/-- An account that lists an application has a record. -/
theorem contains_of_optedIn (h : (l.accountOrFresh x).optedIn.contains id = true) :
    l.accounts.contains x = true := by
  by_contra hx
  rw [accountOrFresh_of_absent (Bool.eq_false_iff.mpr hx)] at h
  cases h

/-- An opt-in is entered on both sides, once. -/
theorem consistent_optIn (h : l.Consistent stops) (hrun : l.optIn id x = .ok l') : l'.Consistent stops := by
  obtain ⟨app, happ, hrun⟩ := bind_eq_ok_iff.mp hrun
  rw [application_eq_ok_iff] at happ
  by_cases hin : app.locals.contains x = true
  · rw [if_pos hin] at hrun
    cases hrun
    exact h
  · rw [if_neg hin] at hrun
    cases hrun
    have htidy := h.tidy x
    have hcounts := h.counts x
    -- who has no local state is not listed either
    have hnot : (l.accountOrFresh x).optedIn.contains id = false := by
      rw [Bool.eq_false_iff, ne_eq, h.locals id x]
      rintro ⟨found, hfound, hlocals⟩
      cases happ.symm.trans hfound
      exact hin hlocals
    show ((l.withApplication id { app with locals := app.locals.insert x {} }).updateAccount x
      (enlist id)).Consistent stops
    refine Consistent.withApplication_updateAccount happ ?_ h ?_ ?_ ?_ ?_ ?_ ?_
    · rfl
    · refine ⟨Table.increasing_insert htidy.optedInOrder id _, htidy.holdingsOrder, ?_, htidy.held⟩
      show (l.accountOrFresh x).appsOptedIn + 1 = _
      rw [htidy.optedIn]
      exact (Table.size_insert_of_absent _ hnot).symm
    · exact ⟨hcounts.apps, hcounts.pages, hcounts.assets⟩
    · rfl
    · rw [enlist, (Table.contains_insert ..).mpr (.inl rfl),
        (Table.contains_insert ..).mpr (.inl rfl)]
    · intro other hother
      rw [Bool.eq_iff_iff, enlist, Table.contains_insert, or_iff_right hother]
    · intro y hy
      rw [Bool.eq_iff_iff, Table.contains_insert, or_iff_right hy]

/-- The end of an opt-in is entered on both sides, too. -/
theorem consistent_closeOut (h : l.Consistent stops) (hrun : l.closeOut id x = .ok l') :
    l'.Consistent stops := by
  obtain ⟨app, happ, hin, -, rfl⟩ := closeOut_eq_ok_iff.mp hrun
  have htidy := h.tidy x
  have hcounts := h.counts x
  have hlisted : (l.accountOrFresh x).optedIn.contains id = true :=
    (h.locals id x).mpr ⟨app, happ, hin⟩
  refine Consistent.withApplication_updateAccount happ ?_ h ?_ ?_ ?_ ?_ ?_ ?_
  · rfl
  · refine ⟨Table.increasing_erase htidy.optedInOrder id, htidy.holdingsOrder, ?_, htidy.held⟩
    show (l.accountOrFresh x).appsOptedIn - 1 = _
    rw [htidy.optedIn]
    exact (Table.size_erase_of_contains htidy.optedInOrder hlisted).symm
  · exact ⟨hcounts.apps, hcounts.pages, hcounts.assets⟩
  · rfl
  · rw [Bool.eq_iff_iff, delist, Table.contains_erase, Table.contains_erase]
    simp
  · intro other hother
    rw [Bool.eq_iff_iff, delist, Table.contains_erase, and_iff_right hother]
  · intro y hy
    rw [Bool.eq_iff_iff, Table.contains_erase, and_iff_right hy]

/-- Whoever has local state can be closed out, so a close-out is refused before it changes
    anything. -/
theorem exists_closeOut (h : l.Consistent stops) (hlocals : l.HasLocals id x) :
    ∃ l', l.closeOut id x = .ok l' := by
  have hlisted := (h.locals id x).mpr hlocals
  obtain ⟨app, happ, hin⟩ := hlocals
  exact ⟨_, closeOut_eq_ok_iff.mpr ⟨app, happ, hin, contains_of_optedIn hlisted, rfl⟩⟩

/-! ## Holdings and parameters of assets -/

/-- An account may hold nothing of an asset, which then counts as held. -/
theorem consistent_optInAsset (h : l.Consistent stops) (hrun : l.optInAsset id x = .ok l') :
    l'.Consistent stops := by
  obtain ⟨asset, hasset, hrun⟩ := bind_eq_ok_iff.mp hrun
  rw [asset_eq_ok_iff] at hasset
  cases hrun
  have htidy := h.tidy x
  have hcounts := h.counts x
  by_cases hin : (l.accountOrFresh x).holdings.contains id = true
  · refine h.updateAccount ?_ ?_ ?_ fun _ => ?_
    all_goals rw [if_pos hin]
    · exact htidy
    · exact hcounts
    · exact h.held x
  · have hsize := Table.size_insert_of_absent (⟨0, asset.params.defaultFrozen⟩ : Holding)
      (Bool.eq_false_iff.mpr hin)
    refine h.updateAccount ?_ ?_ ?_ fun _ => ?_
    all_goals rw [if_neg hin]
    · refine ⟨htidy.optedInOrder, Table.increasing_insert htidy.holdingsOrder id _,
        htidy.optedIn, ?_⟩
      rw [hsize, htidy.held]
    · exact ⟨hcounts.apps, hcounts.pages, hcounts.assets⟩
    · intro other hother
      rcases (Table.contains_insert ..).mp hother with rfl | hother
      · exact Table.contains_of_get? hasset
      · exact h.held x other hother

/-- Whoever is opted in to an asset goes on to hold it, in whatever amount. -/
theorem consistent_setHolding {held : Holding} (h : l.Consistent stops)
    (hrun : l.setHolding id x held = .ok l') : l'.Consistent stops := by
  obtain ⟨before, hbefore, hrun⟩ := bind_eq_ok_iff.mp hrun
  obtain ⟨-, rfl⟩ := modifyAccount_eq_ok_iff.mp hrun
  have hin : (l.accountOrFresh x).holdings.contains id = true := by
    obtain ⟨asset, -, hbefore⟩ := bind_eq_ok_iff.mp hbefore
    obtain ⟨a, ha, hbefore⟩ := bind_eq_ok_iff.mp hbefore
    rw [accountOrFresh_of_get? (account_eq_ok_iff.mp ha), Table.contains]
    cases hheld : a.holdings.get? id with
    | none => simp [hheld] at hbefore
    | some _ => rfl
  have htidy := h.tidy x
  have hcounts := h.counts x
  have hsize := Table.size_insert_of_contains htidy.holdingsOrder hin held
  refine h.updateAccount ?_ ⟨hcounts.apps, hcounts.pages, hcounts.assets⟩ ?_ fun _ => rfl
  · refine ⟨htidy.optedInOrder, Table.increasing_insert htidy.holdingsOrder id _, htidy.optedIn, ?_⟩
    rw [hsize]
    exact htidy.held
  · intro other hother
    rw [Table.contains_insert_of_contains held hin] at hother
    exact h.held x other hother

/-- An asset that is given new parameters keeps its creator. -/
theorem consistent_configureAsset {params : AssetParams} (h : l.Consistent stops)
    (hrun : l.configureAsset id params = .ok l') : l'.Consistent stops := by
  obtain ⟨asset, hasset, hrun⟩ := bind_eq_ok_iff.mp hrun
  rw [asset_eq_ok_iff] at hasset
  cases hrun
  have hknown := Table.contains_insert_of_contains { asset with params }
    (Table.contains_of_get? hasset)
  refine { h with
    counts := ?_
    held := ?_
    assetsOrder := Table.increasing_insert h.assetsOrder id _
    assetIds := ?_ }
  · intro x
    have hcounts := h.counts x
    refine ⟨hcounts.apps, hcounts.pages, ?_⟩
    rw [length_createdAssets_of_overwrite (b := { asset with params }) h.assetsOrder
      hasset rfl rfl]
    exact hcounts.assets
  · intro x other hother
    exact (hknown other).trans (h.held x other hother)
  · intro other hother
    exact h.assetIds other ((hknown other).symm.trans hother)

/-! ## State, boxes and logs of applications -/

/-- What does not touch origin and opt-ins of an application may change anything else of it. -/
theorem consistent_modifyApplication {f : Application → Application} (h : l.Consistent stops)
    (hrun : l.modifyApplication id f = .ok l') (horigin : ∀ app, origin (f app) = origin app)
    (hlocals : ∀ app, (f app).locals = app.locals) : l'.Consistent stops := by
  obtain ⟨app, happ, hrun⟩ := bind_eq_ok_iff.mp hrun
  cases hrun
  refine h.withApplication (application_eq_ok_iff.mp happ) (horigin app) fun x => ?_
  rw [hlocals]

/-- A write to local state keeps the account opted in. -/
theorem consistent_setLocalState {key : Bytes} {v : Option StackValue} (h : l.Consistent stops)
    (hrun : l.setLocalState id x key v = .ok l') : l'.Consistent stops := by
  obtain ⟨⟨app, store⟩, hstore, hrun⟩ := bind_eq_ok_iff.mp hrun
  obtain ⟨happ, hstore⟩ := localStore_eq_ok_iff.mp hstore
  cases hrun
  refine h.withApplication happ rfl fun y => ?_
  exact Table.contains_insert_of_contains _ (Table.contains_of_get? hstore) y

/-- Boxes are part of no record that is kept twice. -/
theorem consistent_withBoxes {α : Type} {action : BoxAction α} {answer : Result α}
    (h : l.Consistent stops) (hrun : l.withBoxes id action = .ok (answer, l')) : l'.Consistent stops := by
  obtain ⟨app, happ, hrun⟩ := bind_eq_ok_iff.mp hrun
  cases haction : action.run app.boxes with
  | error e =>
      rw [haction] at hrun
      cases hrun
      exact h
  | ok result =>
      rw [haction] at hrun
      cases hrun
      exact h.withApplication (application_eq_ok_iff.mp happ) rfl fun _ => rfl

/-- A fresh record counts nothing, as was seen before. -/
theorem consistent_ensureAccount (h : l.Consistent stops) (x : Address) :
    (l.ensureAccount x).Consistent stops :=
  h.updateAccount (h.tidy x) (h.counts x) (h.held x) fun _ => rfl

/-! ## Effects of inner transactions -/

/-- **AN INNER TRANSACTION** leaves the records in agreement, because its effects are those of other
    operations. -/
theorem consistent_applyEffects {t t' : Transaction} (h : l.Consistent stops)
    (hrun : applyEffects t l = .ok (t', l')) : l'.Consistent stops := by
  cases effect_of_applyEffects hrun with
  | createAsset _ hcreate => exact consistent_createAsset h hcreate
  | configureAsset _ hconfigure => exact consistent_configureAsset h hconfigure
  | optInAsset _ hopted => exact consistent_optInAsset h hopted
  | createApplication _ _ hcreate => exact consistent_createApplication h hcreate
  | optIn _ _ hopted => exact consistent_optIn h hopted
  | closeOut _ _ hclosed => exact consistent_closeOut h hclosed
  | absent _ _ _ | nothing _ => exact h

end Ledger

end AvmSandbox
