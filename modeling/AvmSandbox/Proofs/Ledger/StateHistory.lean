import AvmSandbox.Proofs.Ledger.Reachable

/-! # State — what the keys of applications and accounts hold

    A key of an application, or of an account that is opted in to one, holds
    what its past has left: the value that was written last, unless it was
    deleted or went with a close-out.  Deleting a number leaves zero behind and
    deleting bytes leaves nothing, so it takes the whole past of a key, and no
    other part of the ledger, to say what it holds.

    * `Change` and `StateStore.valueAt_update`: one key of one store;
    * `StateStore.Tight`: stores list no key without a value;
    * `Place`, `Ledger.valueAt`: the keys of a ledger;
    * `Operation.changeAt`, `carries_of_run`: what one operation does to a key;
    * `history`, `state_of_run`: what a key holds behind any row of operations. -/

namespace AvmSandbox

/-! ## One store -/

/-- What can happen to the value at a key. -/
inductive Change where
  | written (v : StackValue)
  | deleted
  /-- The store that the key belongs to is gone. -/
  | dropped
  deriving DecidableEq

namespace Change

/-- A write, or a deletion when there is nothing to write. -/
def ofUpdate : Option StackValue → Change
  | some v => written v
  | none => deleted

/-- What a change leaves of the value at a key. -/
def onto : Option StackValue → Change → Option StackValue
  | _, written v => some v
  | some (.uint64 _), deleted => some (.uint64 0)
  | _, _ => none

@[simp] theorem onto_written (before : Option StackValue) (v : StackValue) :
    (written v).onto before = some v := by
  cases before with
  | none => rfl
  | some w => cases w <;> rfl

@[simp] theorem onto_dropped (before : Option StackValue) : dropped.onto before = none := by
  cases before with
  | none => rfl
  | some w => cases w <;> rfl

end Change

namespace StateStore

variable {store : StateStore} {key other : Bytes}

/-- The value at a key. -/
def valueAt (store : StateStore) (key : Bytes) : Option StackValue :=
  (store.get? key).bind StateSlot.value?

/-- What is read for a value that may be missing. -/
def reading : Option StackValue → StackValue × Bool
  | some v => (v, true)
  | none => (.uint64 0, false)

/-- A store is read as its value at the key is. -/
theorem read_eq (store : StateStore) (key : Bytes) :
    StateStore.read store key = reading (store.valueAt key) := by
  rw [StateStore.read, valueAt]
  cases (store.get? key).bind StateSlot.value? with
  | some v => rfl
  | none => rfl

/-- A slot put at one key is seen there and nowhere else. -/
theorem valueAt_insert (s : StateSlot) :
    StateStore.valueAt (store.insert key s) other =
      if other = key then s.value? else store.valueAt other := by
  rw [valueAt, Table.get?_insert]
  by_cases h : other = key
  · rw [if_pos h, if_pos h, Option.bind_some]
  · rw [if_neg h, if_neg h, valueAt]

/-- A key that is erased has no value, and no other key loses its own. -/
theorem valueAt_erase :
    StateStore.valueAt (store.erase key) other =
      if other = key then none else store.valueAt other := by
  rw [valueAt, Table.get?_erase]
  by_cases h : other = key
  · rw [if_pos h, if_pos h, Option.bind_none]
  · rw [if_neg h, if_neg h, valueAt]

/-- A slot is deleted as its value is. -/
theorem value?_delete (s : StateSlot) : s.delete.value? = Change.deleted.onto s.value? := by
  rw [StateSlot.delete]
  cases s.value? with
  | none => rfl
  | some v => cases v <;> rfl

/-- Deleting at a key without a slot changes nothing. -/
theorem delete_of_absent (h : store.get? key = none) : StateStore.delete store key = store := by
  rw [StateStore.delete, h]

/-- A slot stays when its deletion leaves a value. -/
theorem delete_of_get? {s : StateSlot} (h : store.get? key = some s) :
    StateStore.delete store key =
      if s.delete.value?.isSome = true then store.insert key s.delete else store.erase key := by
  rw [StateStore.delete, h]

/-- **A WRITE OR A DELETION CHANGES ITS OWN KEY** and no other one. -/
theorem valueAt_update (store : StateStore) (key : Bytes) (v : Option StackValue)
    (other : Bytes) :
    StateStore.valueAt (StateStore.update store key v) other =
      if other = key then (Change.ofUpdate v).onto (store.valueAt key)
      else store.valueAt other := by
  cases v with
  | some v =>
      rw [StateStore.update, StateStore.write, valueAt_insert, Change.ofUpdate, Change.onto_written]
      rfl
  | none =>
      rw [StateStore.update, Change.ofUpdate]
      cases hs : store.get? key with
      | none =>
          rw [delete_of_absent hs]
          have hkey : store.valueAt key = none := by rw [valueAt, hs, Option.bind_none]
          by_cases h : other = key
          · rw [if_pos h, h, hkey]
            rfl
          · rw [if_neg h]
      | some s =>
          have hkey : store.valueAt key = s.value? := by rw [valueAt, hs, Option.bind_some]
          rw [delete_of_get? hs, hkey, ← value?_delete]
          by_cases hset : s.delete.value?.isSome = true
          · rw [if_pos hset, valueAt_insert]
          · rw [if_neg hset, valueAt_erase, Option.not_isSome_iff_eq_none.mp hset]

/-! ## Listed keys -/

/-- Whether every slot of a store is set. -/
def Tight (store : StateStore) : Prop := ∀ e ∈ store.entries, e.2.value?.isSome = true

theorem tight_empty : StateStore.Tight {} := by
  intro e he
  cases he

/-- An update leaves no slot behind that is without a value. -/
theorem tight_update (h : store.Tight) (key : Bytes) (v : Option StackValue) :
    StateStore.Tight (StateStore.update store key v) := by
  have hinsert : ∀ s : StateSlot, s.value?.isSome = true →
      StateStore.Tight (store.insert key s) := by
    intro s hs e he
    rcases Table.eq_or_mem_of_mem_place he with rfl | he
    · exact hs
    · exact h e he
  cases v with
  | some v => exact hinsert _ rfl
  | none =>
      rw [StateStore.update]
      cases hs : store.get? key with
      | none =>
          rw [delete_of_absent hs]
          exact h
      | some s =>
          rw [delete_of_get? hs]
          by_cases hset : s.delete.value?.isSome = true
          · rw [if_pos hset]
            exact hinsert _ hset
          · rw [if_neg hset]
            intro e he
            exact h e (List.mem_of_mem_filter he)

/-- Where every slot is set, the keys that are listed are those with a value. -/
theorem Tight.mem_keys_iff (h : store.Tight) :
    key ∈ store.keys ↔ ∃ v, store.valueAt key = some v := by
  rw [Table.mem_keys_iff, Table.contains_eq_true_iff]
  constructor
  · rintro ⟨s, hs⟩
    have hset := h _ (Table.mem_entries_of_get? hs)
    obtain ⟨v, hv⟩ := Option.isSome_iff_exists.mp hset
    exact ⟨v, by rw [valueAt, hs, Option.bind_some, hv]⟩
  · rintro ⟨v, hv⟩
    obtain ⟨s, hs, -⟩ := Option.bind_eq_some_iff.mp hv
    exact ⟨s, hs⟩

/-- And all of them are listed with their values. -/
theorem Tight.map_values (h : store.Tight) : store.values.map Prod.fst = store.keys := by
  obtain ⟨entries⟩ := store
  show (entries.filterMap fun e => e.2.value?.map fun v => (e.1, v)).map Prod.fst
    = entries.map Prod.fst
  change ∀ e ∈ entries, e.2.value?.isSome = true at h
  induction entries with
  | nil => rfl
  | cons e entries ih =>
      rw [List.forall_mem_cons] at h
      obtain ⟨v, hv⟩ := Option.isSome_iff_exists.mp h.1
      rw [List.filterMap_cons_some (by rw [hv]; rfl), List.map_cons, List.map_cons, ih h.2]

end StateStore

/-! ## The state of applications -/

/-- What an application keeps: its own state, and that of the accounts in it. -/
abbrev AppState := StateStore × Table Address StateStore

/-- A key of an application, or of an account in it. -/
inductive Place where
  | shared (id : UInt64) (key : Bytes)
  | ofAccount (id : UInt64) (account : Address) (key : Bytes)
  deriving DecidableEq

namespace Place

def app : Place → UInt64
  | shared id _ | ofAccount id _ _ => id

def key : Place → Bytes
  | shared _ key | ofAccount _ _ key => key

/-- Whether a place belongs to an account in an application. -/
def IsOf (id : UInt64) (x : Address) (p : Place) : Prop := p = ofAccount id x p.key

instance (id : UInt64) (x : Address) : DecidablePred (IsOf id x) := fun p =>
  inferInstanceAs (Decidable (p = ofAccount id x p.key))

theorem isOf_iff {id : UInt64} {x : Address} {p : Place} :
    p.IsOf id x ↔ ∃ key, p = ofAccount id x key := by
  constructor
  · intro h
    exact ⟨p.key, h⟩
  · rintro ⟨key, rfl⟩
    rfl

end Place

namespace AppState

/-- The store that a place belongs to. -/
def store? (s : AppState) : Place → Option StateStore
  | .shared _ _ => some s.1
  | .ofAccount _ x _ => s.2.get? x

def valueAt (s : AppState) (p : Place) : Option StackValue :=
  (s.store? p).bind fun store => store.valueAt p.key

end AppState

namespace Ledger

variable {l l' : Ledger} {id : UInt64} {x : Address} {s : AppState} {stops : Address → Nat}

/-- What an application keeps, if there is one. -/
def state? (l : Ledger) (id : UInt64) : Option AppState :=
  (l.applications.get? id).map fun app => (app.globals, app.locals)

/-- The value at a place. -/
def valueAt (l : Ledger) (p : Place) : Option StackValue :=
  (l.state? p.app).bind fun s => s.valueAt p

/-- Whether a place can be written to: the application is there, and the account is opted in. -/
def Offers (l : Ledger) : Place → Prop
  | .shared id _ => ∃ app, l.application id = .ok app
  | .ofAccount id x _ => l.isOptedIn id x = .ok true

/-- The value at a place and whether it exists. -/
def read (l : Ledger) : Place → Result (StackValue × Bool)
  | .shared id key => l.globalState id key
  | .ofAccount id x key => l.localState id x key

/-! ## What one operation does -/

/-- Whether an application keeps another state, and all others the same. -/
def Rewritten (l : Ledger) (id : UInt64) (s : AppState) (l' : Ledger) : Prop :=
  ∀ other, l'.state? other = if other = id then some s else l.state? other

/-- Whether no application lists a key without a value. -/
def Tight (l : Ledger) : Prop := ∀ id s, l.state? id = some s → s.1.Tight

/-- Whether a ledger differs from another one in what some changes leave of the values. -/
structure Carries (l : Ledger) (change : Place → Option Change) (l' : Ledger) : Prop where
  values : ∀ p, l'.valueAt p = (change p).toList.foldl Change.onto (l.valueAt p)
  tight : l.Tight → l'.Tight

variable {change : Place → Option Change}

theorem state?_of_get? {app : Application} (h : l.applications.get? id = some app) :
    l.state? id = some (app.globals, app.locals) := by
  rw [state?, h, Option.map_some]

theorem rewritten_withApplication (l : Ledger) (id : UInt64) (app : Application) :
    l.Rewritten id (app.globals, app.locals) (l.withApplication id app) := by
  intro other
  rw [state?, get?_withApplication]
  by_cases h : other = id
  · rw [if_pos h, if_pos h, Option.map_some]
  · rw [if_neg h, if_neg h, state?]

/-- An operation that leaves every store alone carries a change that does nothing. -/
theorem carries_of_same (h : ∀ other, l'.state? other = l.state? other)
    (hchange : ∀ p, (change p).toList.foldl Change.onto (l.valueAt p) = l.valueAt p) :
    l.Carries change l' where
  values p := by
    rw [hchange, valueAt, h, valueAt]
  tight htight other t ht := htight other t ((h other).symm.trans ht)

/-- An operation that writes the state of one application carries what it does to the places of that
    application, and nothing anywhere else. -/
theorem carries_of_rewritten (h : l.Rewritten id s l') (hothers : ∀ p, p.app ≠ id → change p = none)
    (hvalues : ∀ p, p.app = id →
      s.valueAt p = (change p).toList.foldl Change.onto (l.valueAt p))
    (htight : l.Tight → s.1.Tight) : l.Carries change l' where
  values p := by
    rw [valueAt, h]
    by_cases hp : p.app = id
    · rw [if_pos hp, Option.bind_some]
      exact hvalues p hp
    · rw [if_neg hp, hothers p hp]
      rfl
  tight hl other t ht := by
    rw [h] at ht
    by_cases hother : other = id
    · rw [if_pos hother] at ht
      cases ht
      exact htight hl
    · rw [if_neg hother] at ht
      exact hl other t ht

theorem valueAt_of_state? {p : Place} (h : l.state? p.app = some s) :
    l.valueAt p = s.valueAt p := by
  rw [valueAt, h, Option.bind_some]

/-- What else an application has makes no difference. -/
theorem carries_withApplication {app app' : Application}
    (happ : l.applications.get? id = some app) (hglobals : app'.globals = app.globals)
    (hlocals : app'.locals = app.locals) :
    l.Carries (fun _ => none) (l.withApplication id app') := by
  refine carries_of_same ?_ fun _ => rfl
  intro other
  refine (rewritten_withApplication l id app' other).trans ?_
  by_cases h : other = id
  · rw [if_pos h, h, state?_of_get? happ, hglobals, hlocals]
  · rw [if_neg h]

/-- A new application keeps nothing, and its id kept nothing before. -/
theorem carries_createApplication {creator : Address} {program : Program} (h : l.Consistent stops)
    (hrun : l.createApplication creator program = .ok (id, l')) :
    l.Carries (fun _ => none) l' := by
  have hnew := Table.contains_eq_false_iff.mp (absent_of_createApplication h hrun)
  obtain ⟨-, next, pages, -, -, rfl⟩ := of_createApplication hrun
  refine carries_of_rewritten (rewritten_withApplication l id (.new id creator program))
    (fun _ _ => rfl) ?_ fun _ => StateStore.tight_empty
  intro p hp
  rw [valueAt, hp, state?, hnew]
  cases p with
  | shared id key => rfl
  | ofAccount id x key => rfl

/-- Where one account gets another store, or none, only its own places change. -/
theorem carries_of_locals {globals : StateStore} {locals locals' : Table Address StateStore}
    {store? : Option StateStore} (hstate : l.state? id = some (globals, locals))
    (h : l.Rewritten id (globals, locals') l')
    (hget : ∀ y, locals'.get? y = if y = x then store? else locals.get? y)
    (hothers : ∀ p, ¬p.IsOf id x → change p = none)
    (hvalues : ∀ key, (store?.bind fun store => store.valueAt key)
      = (change (.ofAccount id x key)).toList.foldl Change.onto
          ((locals.get? x).bind fun store => store.valueAt key)) :
    l.Carries change l' := by
  have hneither : ∀ p, (∀ key, p ≠ .ofAccount id x key) → change p = none := by
    intro p hp
    refine hothers p ?_
    rw [Place.isOf_iff]
    rintro ⟨key, h⟩
    exact hp key h
  refine carries_of_rewritten h ?_ ?_ fun htight => htight id (globals, locals) hstate
  · intro p hp
    refine hneither p ?_
    rintro key rfl
    exact hp rfl
  · rintro (⟨other, key⟩ | ⟨other, y, key⟩) hother
    · obtain rfl : other = id := hother
      rw [valueAt_of_state? hstate, hneither _ (by simp)]
      rfl
    · obtain rfl : other = id := hother
      rw [valueAt_of_state? hstate]
      show ((locals'.get? y).bind _) = _
      rw [hget]
      by_cases hy : y = x
      · rw [if_pos hy, hy]
        exact hvalues key
      · rw [if_neg hy, hneither _ (by simp [hy])]
        rfl

/-- An account that opts in has nothing yet. -/
theorem carries_optIn (hrun : l.optIn id x = .ok l') : l.Carries (fun _ => none) l' := by
  obtain ⟨app, happ, hrun⟩ := bind_eq_ok_iff.mp hrun
  have hstate := state?_of_get? (application_eq_ok_iff.mp happ)
  by_cases hin : app.locals.contains x = true
  · rw [if_pos hin] at hrun
    obtain rfl := pure_eq_ok_iff.mp hrun
    exact carries_of_same (fun _ => rfl) fun _ => rfl
  · rw [if_neg hin] at hrun
    obtain rfl := pure_eq_ok_iff.mp hrun
    have hnot := Table.contains_eq_false_iff.mp (Bool.eq_false_iff.mpr hin)
    refine carries_of_locals hstate
      (rewritten_withApplication l id { app with locals := app.locals.insert x {} })
      (Table.get?_insert app.locals x {}) (fun _ _ => rfl) ?_
    intro key
    rw [hnot]
    rfl

/-- What is lost with a close-out. -/
def droppedWith (id : UInt64) (x : Address) (p : Place) : Option Change :=
  if p.IsOf id x then some .dropped else none

/-- An account that closes out drops what it stored with the application, key by key. -/
theorem carries_closeOut (hrun : l.closeOut id x = .ok l') :
    l.Carries (droppedWith id x) l' := by
  obtain ⟨app, happ, -, -, rfl⟩ := closeOut_eq_ok_iff.mp hrun
  refine carries_of_locals (state?_of_get? happ)
    (rewritten_withApplication l id { app with locals := app.locals.erase x })
    (Table.get?_erase app.locals x) (fun _ hp => if_neg hp) ?_
  intro key
  rw [droppedWith, if_pos (Place.isOf_iff.mpr ⟨key, rfl⟩), Option.toList_some, List.foldl_cons,
    List.foldl_nil, Change.onto_dropped]
  rfl

/-- Nothing is lost with an account that is not opted in. -/
theorem carries_droppedWith_of_absent (h : l.isOptedIn id x = .ok false) :
    l.Carries (droppedWith id x) l := by
  obtain ⟨app, happ, hnot⟩ := bind_eq_ok_iff.mp h
  have hstate := state?_of_get? (application_eq_ok_iff.mp happ)
  have habsent := Table.contains_eq_false_iff.mp (pure_eq_ok_iff.mp hnot)
  refine carries_of_same (fun _ => rfl) ?_
  intro p
  rw [droppedWith]
  by_cases hp : p.IsOf id x
  · rw [if_pos hp]
    obtain ⟨key, rfl⟩ := Place.isOf_iff.mp hp
    have hvalue : l.valueAt (.ofAccount id x key) = none := by
      rw [valueAt_of_state? hstate]
      show (app.locals.get? x).bind _ = none
      rw [habsent, Option.bind_none]
    rw [hvalue]
    rfl
  · rw [if_neg hp]
    rfl

/-- A change of a single place. -/
def changedAt (p : Place) (v : Option StackValue) (q : Place) : Option Change :=
  if q = p then some (.ofUpdate v) else none

/-- A value set globally is written, and an absent one deleted, at its key alone. -/
theorem carries_setGlobalState {key : Bytes} {v : Option StackValue}
    (hrun : l.setGlobalState id key v = .ok l') :
    l.Carries (changedAt (.shared id key) v) l' := by
  obtain ⟨app, happ, hrun⟩ := bind_eq_ok_iff.mp hrun
  obtain rfl := pure_eq_ok_iff.mp hrun
  have hstate := state?_of_get? (application_eq_ok_iff.mp happ)
  refine carries_of_rewritten
    (rewritten_withApplication l id { app with globals := StateStore.update app.globals key v })
    ?_ ?_ fun htight => StateStore.tight_update (htight id _ hstate) key v
  · intro p hp
    refine if_neg ?_
    rintro rfl
    exact hp rfl
  · rintro (⟨other, k⟩ | ⟨other, y, k⟩) hother
    · obtain rfl : other = id := hother
      rw [valueAt_of_state? hstate, changedAt]
      show StateStore.valueAt (StateStore.update app.globals key v) k = _
      rw [StateStore.valueAt_update]
      by_cases hk : k = key
      · subst hk
        rw [if_pos rfl, if_pos rfl]
        rfl
      · rw [if_neg hk, if_neg]
        · rfl
        · intro h
          exact hk (congrArg Place.key h)
    · obtain rfl : other = id := hother
      rw [valueAt_of_state? hstate]
      rfl

/-- A value set for an account is written, and an absent one deleted, at its key alone. -/
theorem carries_setLocalState {key : Bytes} {v : Option StackValue}
    (hrun : l.setLocalState id x key v = .ok l') :
    l.Carries (changedAt (.ofAccount id x key) v) l' := by
  obtain ⟨⟨app, store⟩, hstore, hrun⟩ := bind_eq_ok_iff.mp hrun
  obtain rfl := pure_eq_ok_iff.mp hrun
  obtain ⟨happ, hstore⟩ := localStore_eq_ok_iff.mp hstore
  refine carries_of_locals (state?_of_get? happ) (rewritten_withApplication l id
      { app with locals := app.locals.insert x (StateStore.update store key v) })
    (Table.get?_insert app.locals x _) ?_ ?_
  · intro p hp
    refine if_neg ?_
    rintro rfl
    exact hp rfl
  · intro k
    rw [hstore, Option.bind_some, Option.bind_some, StateStore.valueAt_update, changedAt]
    by_cases hk : k = key
    · subst hk
      rw [if_pos rfl, if_pos rfl]
      rfl
    · rw [if_neg hk, if_neg]
      · rfl
      · intro h
        exact hk (congrArg Place.key h)

theorem carries_createAsset {creator : Address} {params : AssetParams}
    (hrun : l.createAsset creator params = .ok (id, l')) : l.Carries (fun _ => none) l' := by
  obtain ⟨-, next, -, rfl⟩ := of_createAsset hrun
  exact carries_of_same (fun _ => rfl) fun _ => rfl

theorem carries_optInAsset (hrun : l.optInAsset id x = .ok l') : l.Carries (fun _ => none) l' := by
  obtain ⟨asset, -, hrun⟩ := bind_eq_ok_iff.mp hrun
  obtain rfl := pure_eq_ok_iff.mp hrun
  exact carries_of_same (fun _ => rfl) fun _ => rfl

theorem carries_configureAsset {params : AssetParams}
    (hrun : l.configureAsset id params = .ok l') : l.Carries (fun _ => none) l' := by
  obtain ⟨asset, -, hrun⟩ := bind_eq_ok_iff.mp hrun
  obtain rfl := pure_eq_ok_iff.mp hrun
  exact carries_of_same (fun _ => rfl) fun _ => rfl

theorem carries_setHolding {held : Holding} (hrun : l.setHolding id x held = .ok l') :
    l.Carries (fun _ => none) l' := by
  obtain ⟨before, -, hrun⟩ := bind_eq_ok_iff.mp hrun
  obtain ⟨-, rfl⟩ := modifyAccount_eq_ok_iff.mp hrun
  exact carries_of_same (fun _ => rfl) fun _ => rfl

/-- Whatever is done to its boxes, an application keeps its state. -/
theorem carries_withBoxes {α : Type} {action : BoxAction α} {answer : Result α}
    (hrun : l.withBoxes id action = .ok (answer, l')) : l.Carries (fun _ => none) l' := by
  obtain ⟨app, happ, hrun⟩ := bind_eq_ok_iff.mp hrun
  cases haction : action.run app.boxes with
  | error e =>
      rw [haction] at hrun
      cases hrun
      exact carries_of_same (fun _ => rfl) fun _ => rfl
  | ok result =>
      rw [haction] at hrun
      cases hrun
      exact carries_withApplication (application_eq_ok_iff.mp happ) rfl rfl

/-- What is lost with an inner transaction: a call that closes out or clears state ends the opt-in
    of its sender. -/
def droppedBy (t : Transaction) : Place → Option Change :=
  match t.body with
  | .call c =>
      if c.app ≠ 0 ∧ (c.onCompletion = .closeOut ∨ c.onCompletion = .clearState) then
        droppedWith c.app t.header.sender
      else fun _ => none
  | _ => fun _ => none

/-- A transaction that is applied drops what its sender stored where it closes out or clears, and
    leaves every other place. -/
theorem carries_applyEffects {t t' : Transaction} (h : l.Consistent stops)
    (hrun : applyEffects t l = .ok (t', l')) : l.Carries (droppedBy t) l' := by
  have hkept : (∀ c, t.body = .call c → ¬c.Leaves) → droppedBy t = fun _ => none := by
    intro hstays
    rw [droppedBy]
    split
    · next c hbody => exact if_neg (hstays c hbody)
    · rfl
  have hdropped : ∀ {c}, t.body = .call c → c.Leaves →
      droppedBy t = droppedWith c.app t.header.sender := by
    intro c hbody hleaves
    rw [droppedBy, hbody]
    exact if_pos hleaves
  cases effect_of_applyEffects hrun with
  | createAsset hbody hcreate =>
      rw [hkept (by simp [hbody])]
      exact carries_createAsset hcreate
  | configureAsset hbody hconfigure =>
      rw [hkept (by simp [hbody])]
      exact carries_configureAsset hconfigure
  | optInAsset hbody hopted =>
      rw [hkept (by simp [hbody])]
      exact carries_optInAsset hopted
  | createApplication hbody hnew hcreate =>
      rw [hkept (by simp [hbody, Call.Leaves, hnew])]
      exact carries_createApplication h hcreate
  | optIn hbody hstays hopted =>
      rw [hkept (by simpa [hbody] using hstays)]
      exact carries_optIn hopted
  | closeOut hbody hleaves hclosed =>
      rw [hdropped hbody hleaves]
      exact carries_closeOut hclosed
  | absent hbody hleaves habsent =>
      rw [hdropped hbody hleaves]
      exact carries_droppedWith_of_absent habsent
  | nothing hstays =>
      rw [hkept hstays]
      exact carries_of_same (fun _ => rfl) fun _ => rfl

/-- What an operation does to a place when it is carried out. -/
def Operation.changeAt : Operation → Place → Option Change
  | setGlobalState id key v => changedAt (.shared id key) v
  | setLocalState id x key v => changedAt (.ofAccount id x key) v
  | closeOut id x => droppedWith id x
  | applyEffects t => droppedBy t
  | _ => fun _ => none

/-- **AN OPERATION CHANGES THE PLACES IT NAMES** and no other one. -/
theorem carries_of_run {op : Operation} (h : l.Consistent stops) (hrun : op.run l = .ok l') :
    l.Carries op.changeAt l' := by
  cases op with
  | createApplication creator program =>
      obtain ⟨⟨id, after⟩, hcreate, hrun⟩ := bind_eq_ok_iff.mp hrun
      cases hrun
      exact carries_createApplication h hcreate
  | createAsset creator params =>
      obtain ⟨⟨id, after⟩, hcreate, hrun⟩ := bind_eq_ok_iff.mp hrun
      cases hrun
      exact carries_createAsset hcreate
  | optIn id account => exact carries_optIn hrun
  | closeOut id account => exact carries_closeOut hrun
  | optInAsset id account => exact carries_optInAsset hrun
  | setHolding id account held => exact carries_setHolding hrun
  | configureAsset id params => exact carries_configureAsset hrun
  | setGlobalState id key v => exact carries_setGlobalState hrun
  | setLocalState id account key v => exact carries_setLocalState hrun
  | appendLog id entry | setCreating id value =>
      obtain ⟨app, happ, hrun⟩ := bind_eq_ok_iff.mp hrun
      obtain rfl := pure_eq_ok_iff.mp hrun
      exact carries_withApplication (application_eq_ok_iff.mp happ) rfl rfl
  | withBoxes id action =>
      obtain ⟨⟨answer, after⟩, hboxes, hrun⟩ := bind_eq_ok_iff.mp hrun
      cases hrun
      exact carries_withBoxes hboxes
  | ensureAccount account | setBlock round b =>
      cases hrun
      exact carries_of_same (fun _ => rfl) fun _ => rfl
  | applyEffects t =>
      obtain ⟨⟨t', after⟩, heffects, hrun⟩ := bind_eq_ok_iff.mp hrun
      cases hrun
      exact carries_applyEffects h heffects

/-- And where it fails it changes none, even if it has begun. -/
theorem carries_left (l : Ledger) (op : Operation) : l.Carries (fun _ => none) (op.left l) := by
  refine carries_of_same ?_ fun _ => rfl
  intro other
  rw [state?, Operation.applications_left, state?]

/-! ## Places that can be written to -/

/-- The operation that writes to a place, or deletes when there is nothing to write. -/
def Operation.writeTo (v : Option StackValue) : Place → Operation
  | .shared id key => setGlobalState id key v
  | .ofAccount id x key => setLocalState id x key v

/-- A write that fails leaves the ledger as it was. -/
theorem Operation.left_writeTo (v : Option StackValue) (p : Place) (l : Ledger) :
    (writeTo v p).left l = l := by
  cases p with
  | shared id key => rfl
  | ofAccount id x key => rfl

/-- Why a place cannot be read or written to. -/
def refusal (l : Ledger) : Place → Fault
  | .shared id _ => .unknownApplication id
  | .ofAccount id x _ =>
      if l.applications.contains id = true then .notOptedIn id x else .unknownApplication id

section offers

variable {p q : Place} {v : Option StackValue}

/-- The write to a place is a change at that place. -/
theorem changeAt_writeTo (p : Place) (v : Option StackValue) :
    (Operation.writeTo v p).changeAt = changedAt p v := by
  cases p with
  | shared id key => rfl
  | ofAccount id x key => rfl

/-- A place is offered where its application is created and, for an account, opted in to. -/
theorem offers_iff :
    l.Offers p ↔ ∃ app store, l.applications.get? p.app = some app ∧
      AppState.store? (app.globals, app.locals) p = some store := by
  rcases p with ⟨id, key⟩ | ⟨id, x, key⟩
  · constructor
    · rintro ⟨app, happ⟩
      exact ⟨app, app.globals, application_eq_ok_iff.mp happ, rfl⟩
    · rintro ⟨app, -, happ, -⟩
      exact ⟨app, application_eq_ok_iff.mpr happ⟩
  · show (l.application id >>= fun app => pure (app.locals.contains x)) = .ok true ↔ _
    rw [bind_eq_ok_iff]
    constructor
    · rintro ⟨app, happ, hin⟩
      obtain ⟨store, hstore⟩ := Table.contains_eq_true_iff.mp (pure_eq_ok_iff.mp hin)
      exact ⟨app, store, application_eq_ok_iff.mp happ, hstore⟩
    · rintro ⟨app, store, happ, hstore⟩
      exact ⟨app, application_eq_ok_iff.mpr happ,
        pure_eq_ok_iff.mpr (Table.contains_of_get? hstore)⟩

/-- A place that can be written to reads as its value. -/
theorem read_of_offers (h : l.Offers p) : l.read p = .ok (StateStore.reading (l.valueAt p)) := by
  obtain ⟨app, store, happ, hstore⟩ := offers_iff.mp h
  rw [valueAt_of_state? (state?_of_get? happ), AppState.valueAt, hstore, Option.bind_some]
  rcases p with ⟨id, key⟩ | ⟨id, x, key⟩
  · cases hstore
    rw [← StateStore.read_eq]
    exact bind_eq_ok_iff.mpr ⟨app, application_eq_ok_iff.mpr happ, rfl⟩
  · rw [← StateStore.read_eq]
    exact bind_eq_ok_iff.mpr ⟨(app, store), localStore_eq_ok_iff.mpr ⟨happ, hstore⟩, rfl⟩

/-- The stores of accounts that are not opted in are refused with the fault of the place. -/
theorem localStore_of_not_offers {key : Bytes} (h : ¬l.Offers (.ofAccount id x key)) :
    l.localStore id x = .error (l.refusal (.ofAccount id x key)) := by
  rw [localStore, application, refusal]
  cases happ : l.applications.get? id with
  | none =>
      rw [if_neg (by rw [Table.contains, happ]; simp)]
      rfl
  | some app =>
      rw [if_pos (Table.contains_of_get? happ), ok_bind]
      cases hstore : app.locals.get? x with
      | none => rfl
      | some store =>
          refine absurd (offers_iff.mpr ⟨app, store, happ, ?_⟩) h
          exact hstore

/-- All other places are refused, whether they are read or written to. -/
theorem refused_of_not_offers (h : ¬l.Offers p) (v : Option StackValue) :
    l.read p = .error (l.refusal p) ∧ (Operation.writeTo v p).run l = .error (l.refusal p) := by
  rcases p with ⟨id, key⟩ | ⟨id, x, key⟩
  · have happ : l.application id = .error (.unknownApplication id) :=
      application_of_ne_ok fun app happ => h ⟨app, happ⟩
    constructor
    · show l.globalState id key = _
      rw [globalState, happ]
      rfl
    · show l.setGlobalState id key v = _
      rw [setGlobalState, modifyApplication, happ]
      rfl
  · have hstore := localStore_of_not_offers h
    constructor
    · show l.localState id x key = _
      rw [localState, hstore]
      rfl
    · show l.setLocalState id x key v = _
      rw [setLocalState, hstore]
      rfl

/-- A write rewrites the record of one application, in which the same accounts are opted in. -/
theorem exists_run_writeTo (h : l.Offers p) (v : Option StackValue) :
    ∃ app app', l.applications.get? p.app = some app ∧
      (Operation.writeTo v p).run l = .ok (l.withApplication p.app app') ∧
      ∀ y, app'.locals.contains y = app.locals.contains y := by
  obtain ⟨app, store, happ, hstore⟩ := offers_iff.mp h
  rcases p with ⟨id, key⟩ | ⟨id, x, key⟩
  · refine ⟨app, _, happ, bind_eq_ok_iff.mpr ⟨app, application_eq_ok_iff.mpr happ, rfl⟩, ?_⟩
    intro y
    rfl
  · refine ⟨app, _, happ, bind_eq_ok_iff.mpr
      ⟨(app, store), localStore_eq_ok_iff.mpr ⟨happ, hstore⟩, rfl⟩, ?_⟩
    exact Table.contains_insert_of_contains _ (Table.contains_of_get? hstore)

/-- What is read depends on the value and on whether the place can be read. -/
theorem read_congr (hoffers : l'.Offers q ↔ l.Offers q) (hrefusal : l'.refusal q = l.refusal q)
    (hvalue : l'.valueAt q = l.valueAt q) : l'.read q = l.read q := by
  by_cases h : l.Offers q
  · rw [read_of_offers (hoffers.mpr h), read_of_offers h, hvalue]
  · rw [(refused_of_not_offers (mt hoffers.mp h) none).1, (refused_of_not_offers h none).1,
      hrefusal]

section withApplication

variable {app app' : Application} (happ : l.applications.get? id = some app)

include happ

theorem refusal_withApplication (q : Place) :
    (l.withApplication id app').refusal q = l.refusal q := by
  have hcontains := Table.contains_insert_of_contains app' (Table.contains_of_get? happ)
  cases q with
  | shared other key => rfl
  | ofAccount other y key =>
      show (if (l.applications.insert id app').contains other = true then _ else _) = _
      rw [hcontains]
      rfl

/-- Writing an application back offers the same places as long as the same accounts are opted in to
    it. -/
theorem offers_withApplication (hlocals : ∀ y, app'.locals.contains y = app.locals.contains y)
    (q : Place) : (l.withApplication id app').Offers q ↔ l.Offers q := by
  have hget := get?_withApplication l id app'
  cases q with
  | shared other key =>
      simp only [Offers, application_eq_ok_iff, hget]
      by_cases h : other = id
      · rw [h, happ]
        simp
      · simp only [if_neg h]
  | ofAccount other y key =>
      simp only [Offers, isOptedIn, bind_eq_ok_iff, pure_eq_ok_iff, application_eq_ok_iff, hget]
      by_cases h : other = id
      · rw [h, happ]
        simp [hlocals]
      · simp only [if_neg h]

end withApplication

/-- **A WRITE IS SEEN AT ITS OWN PLACE ONLY**: every other place reads as before or is refused as
    before, and nothing but the record of one application changes. -/
theorem exists_run_writeTo_frame (hl : l.Consistent stops) (h : l.Offers p) (v : Option StackValue) :
    ∃ l', (Operation.writeTo v p).run l = .ok l' ∧ (∀ q, q ≠ p → l'.read q = l.read q) ∧
      (∀ other, other ≠ p.app → l'.application other = l.application other) ∧
      { l' with applications := l.applications } = l := by
  obtain ⟨app, app', happ, hrun, hlocals⟩ := exists_run_writeTo h v
  refine ⟨_, hrun, ?_, ?_, rfl⟩
  · intro q hq
    refine read_congr (offers_withApplication happ hlocals q) (refusal_withApplication happ q) ?_
    rw [(carries_of_run hl hrun).values, changeAt_writeTo, changedAt, if_neg hq]
    rfl
  · intro other hother
    rw [application, get?_withApplication, if_neg hother, application]

end offers

/-! ## The past of a place -/

/-- What an operation does to a place if it succeeds, and nothing if it fails. -/
def changesAt (p : Place) (l : Ledger) (op : Operation) : List Change :=
  match op.run l with
  | .ok _ => (op.changeAt p).toList
  | .error _ => []

/-- What happened to a place in a row of operations, the earliest first. -/
def history (p : Place) (l : Ledger) : List Operation → List Change
  | [] => []
  | op :: ops => changesAt p l op ++ history p (op.after l) ops

section past

variable {p : Place} {changes recent : List Change}

/-- One operation, whatever comes of it, changes the value of a place as its history says. -/
theorem valueAt_after (h : l.Consistent stops) (op : Operation) (p : Place) :
    (op.after l).valueAt p = (changesAt p l op).foldl Change.onto (l.valueAt p) := by
  rw [Operation.after, changesAt]
  cases hrun : op.run l with
  | ok l' => exact (carries_of_run h hrun).values p
  | error e => exact (carries_left l op).values p

/-- **THE VALUE IS WHAT THE PAST HAS LEFT**, by induction on the operations. -/
theorem valueAt_foldl (h : l.Reachable) (ops : List Operation) (p : Place) :
    (ops.foldl Operation.after l).valueAt p
      = (history p l ops).foldl Change.onto (l.valueAt p) := by
  induction ops generalizing l with
  | nil => rfl
  | cons op ops ih =>
      obtain ⟨stops, hl⟩ := consistent_of_reachable h
      rw [List.foldl_cons, ih (.step op h), valueAt_after hl, history, List.foldl_append]

/-- No ledger in use holds a global slot without a value. -/
theorem tight_of_reachable (h : l.Reachable) : l.Tight := by
  induction h with
  | new settings =>
      intro id s hs
      cases hs
  | step op h ih =>
      obtain ⟨stops, hl⟩ := consistent_of_reachable h
      rw [Operation.after]
      cases hrun : op.run _ with
      | ok l' => exact (carries_of_run hl hrun).tight ih
      | error e => exact (carries_left _ op).tight ih

/-- Without a write there is no value. -/
theorem foldl_onto_of_unwritten (h : ∀ v, .written v ∉ recent) :
    recent.foldl Change.onto none = none := by
  induction recent with
  | nil => rfl
  | cons c recent ih =>
      have hc : c.onto none = none := by
        cases c with
        | written v => exact absurd List.mem_cons_self (h v)
        | deleted | dropped => rfl
      rw [List.foldl_cons, hc]
      exact ih fun v hv => h v (List.mem_cons_of_mem _ hv)

/-- Zero stays when it is deleted again. -/
theorem foldl_onto_zero (k : Nat) :
    (List.replicate k Change.deleted).foldl Change.onto (some (.uint64 0))
      = some (.uint64 0) := by
  induction k with
  | zero => rfl
  | succ k ih => exact ih

end past

/-- **STATE IS WHAT WAS WRITTEN TO IT**, whatever was done to a ledger and whatever failed.  A place
    that can be written to reads as the value that was written last, as a zero that exists when
    that was a number and has been deleted, once or often, and else as a zero that does not exist:
    when bytes were deleted, when nothing was ever written, or not since the account was closed
    out.  The listed keys of an application are those that exist.  A write is seen at its own place
    only.  Where nothing can be written, a write fails and changes nothing. -/
theorem state_of_run (settings : LedgerSettings) (ops : List Operation) :
    let l := ops.foldl Operation.after (new settings)
    let past := fun p => history p (new settings) ops
    (∀ p, l.Offers p →
      (∀ before v, past p = before ++ [.written v] → l.read p = .ok (v, true)) ∧
      (∀ before n k, past p = before ++ .written (.uint64 n) :: List.replicate (k + 1) .deleted →
        l.read p = .ok (.uint64 0, true)) ∧
      (∀ before b k, past p = before ++ .written (.bytes b) :: List.replicate (k + 1) .deleted →
        l.read p = .ok (.uint64 0, false)) ∧
      ∀ recent, (∀ v, .written v ∉ recent) →
        past p = recent ∨ (∃ before, past p = before ++ .dropped :: recent) →
        l.read p = .ok (.uint64 0, false)) ∧
    (∀ id app, l.application id = .ok app → app.globals.values.map Prod.fst = app.globals.keys ∧
      ∀ key, key ∈ app.globals.keys ↔ ∃ v, l.globalState id key = .ok (v, true)) ∧
    (∀ p v, l.Offers p →
      ∃ l', (Operation.writeTo v p).run l = .ok l' ∧ (∀ q, q ≠ p → l'.read q = l.read q) ∧
        (∀ other, other ≠ p.app → l'.application other = l.application other) ∧
        { l' with applications := l.applications } = l) ∧
    ∀ p v, ¬l.Offers p → l.read p = .error (l.refusal p) ∧
      (Operation.writeTo v p).run l = .error (l.refusal p) ∧
      (Operation.writeTo v p).after l = l := by
  intro l past
  have hl : l.Reachable := reachable_foldl ops (.new settings)
  -- whatever is offered reads as its past has left it
  have hread : ∀ p, l.Offers p →
      l.read p = .ok (StateStore.reading ((past p).foldl Change.onto none)) := by
    intro p hp
    rw [read_of_offers hp, valueAt_foldl (.new settings)]
    rfl
  refine ⟨?_, ?_, ?_, ?_⟩
  · intro p hp
    refine ⟨?_, ?_, ?_, ?_⟩
    · intro before v h
      rw [hread p hp, h, List.foldl_append, List.foldl_cons, Change.onto_written]
      rfl
    -- a number that is deleted stays as zero, and again when deleted again
    · intro before n k h
      rw [hread p hp, h, List.foldl_append, List.foldl_cons, Change.onto_written,
        List.replicate_succ, List.foldl_cons]
      exact congrArg (fun v => Except.ok (StateStore.reading v)) (foldl_onto_zero k)
    -- bytes that are deleted are gone with the first deletion
    · intro before b k h
      have hnothing : ∀ v, Change.written v ∉ List.replicate k .deleted := by
        intro v hv
        cases List.eq_of_mem_replicate hv
      rw [hread p hp, h, List.foldl_append, List.foldl_cons, Change.onto_written,
        List.replicate_succ, List.foldl_cons]
      exact congrArg (fun v => Except.ok (StateStore.reading v)) (foldl_onto_of_unwritten hnothing)
    -- nothing was written since the state began, or since it was dropped
    · intro recent hrecent h
      rw [hread p hp]
      rcases h with h | ⟨before, h⟩
      · rw [h, foldl_onto_of_unwritten hrecent]
        rfl
      · rw [h, List.foldl_append, List.foldl_cons, Change.onto_dropped,
          foldl_onto_of_unwritten hrecent]
        rfl
  · intro id app happ
    have hstate := state?_of_get? (application_eq_ok_iff.mp happ)
    -- a key is listed when its slot has a value, and it always has
    have htight := tight_of_reachable hl id _ hstate
    refine ⟨htight.map_values, ?_⟩
    intro key
    have hp : l.read (.shared id key) = .ok (StateStore.reading (app.globals.valueAt key)) := by
      have hoffers : l.Offers (.shared id key) := ⟨app, happ⟩
      rw [read_of_offers hoffers, valueAt_of_state? hstate]
      rfl
    rw [htight.mem_keys_iff]
    show _ ↔ ∃ v, l.read (.shared id key) = .ok (v, true)
    rw [hp]
    cases app.globals.valueAt key with
    | some v => simp [StateStore.reading]
    | none => simp [StateStore.reading]
  · intro p v hp
    obtain ⟨stops, hconsistent⟩ := consistent_of_reachable hl
    exact exists_run_writeTo_frame hconsistent hp v
  · intro p v hp
    obtain ⟨hrefused, hrun⟩ := refused_of_not_offers hp v
    refine ⟨hrefused, hrun, ?_⟩
    rw [Operation.after, hrun]
    exact Operation.left_writeTo v p l

/-- A number deleted twice, bytes deleted once, and an account that was closed out and came back,
    with a write refused in between. -/
def reopened : List Operation :=
  [.createApplication .zero {},
    .optIn 1001 .zero,
    .setGlobalState 1001 [1] (some (.uint64 7)),
    .setGlobalState 1001 [1] none,
    .setGlobalState 1001 [2] (some (.bytes [9])),
    .setLocalState 1001 .zero [1] (some (.uint64 5)),
    .closeOut 1001 .zero,
    .setLocalState 1001 .zero [1] (some (.uint64 6)),
    .setGlobalState 1001 [2] none,
    .setGlobalState 1001 [1] none,
    .setGlobalState 1001 [3] (some (.bytes [8])),
    .optIn 1001 .zero]

/-- The number is a zero that exists and is listed, and the bytes and the value of the account are
    gone.  A write in an application that is not there is refused. -/
theorem state_of_run_reopened :
    let l := reopened.foldl Operation.after (new {})
    l.globalState 1001 [1] = .ok (.uint64 0, true) ∧
      l.globalState 1001 [2] = .ok (.uint64 0, false) ∧
      l.globalState 1001 [3] = .ok (.bytes [8], true) ∧
      l.localState 1001 .zero [1] = .ok (.uint64 0, false) ∧
      (∃ app, l.application 1001 = .ok app ∧ [1] ∈ app.globals.keys) ∧
      (∃ l', l.setGlobalState 1001 [3] none = .ok l' ∧
        l'.globalState 1001 [1] = l.globalState 1001 [1]) ∧
      (Operation.setGlobalState 1002 [1] none).after l = l := by
  intro l
  obtain ⟨hreads, hlisted, hwrites, hrefused⟩ := state_of_run {} reopened
  have hcontains : l.applications.contains 1001 = true := by decide +kernel
  obtain ⟨app, hget⟩ := Table.contains_eq_true_iff.mp hcontains
  have happ : l.application 1001 = .ok app := application_eq_ok_iff.mpr hget
  have hopted : l.isOptedIn 1001 .zero = .ok true := by decide +kernel
  have hnumber : l.globalState 1001 [1] = .ok (.uint64 0, true) :=
    (hreads (.shared 1001 [1]) ⟨app, happ⟩).2.1 [] 7 1 (by decide +kernel)
  refine ⟨hnumber, ?_, ?_, ?_, ⟨app, happ, ?_⟩, ?_, ?_⟩
  · exact (hreads (.shared 1001 [2]) ⟨app, happ⟩).2.2.1 [] [9] 0 (by decide +kernel)
  · exact (hreads (.shared 1001 [3]) ⟨app, happ⟩).1 [] (.bytes [8]) (by decide +kernel)
  · refine (hreads (.ofAccount 1001 .zero [1]) hopted).2.2.2 [] ?_
      (.inr ⟨[.written (.uint64 5)], ?_⟩)
    · intro v hv
      cases hv
    · decide +kernel
  · exact ((hlisted 1001 app happ).2 [1]).mpr ⟨_, hnumber⟩
  · obtain ⟨l', hrun, hothers, -, -⟩ := hwrites (.shared 1001 [3]) none ⟨app, happ⟩
    exact ⟨l', hrun, hothers (.shared 1001 [1]) (by decide)⟩
  · refine (hrefused (.shared 1002 [1]) none ?_).2.2
    rintro ⟨other, hother⟩
    have habsent : l.applications.contains 1002 = false := by decide +kernel
    rw [Table.contains_of_get? (application_eq_ok_iff.mp hother)] at habsent
    cases habsent

end Ledger

end AvmSandbox
