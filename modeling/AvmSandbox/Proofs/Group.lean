import AvmSandbox.Proofs.Action
import AvmSandbox.Timeline

/-! # Groups — what can be read off them and what no step changes

    The steps of a contract change the active transaction, the scratch space and
    the composition of a group.  Behind every such step it is still the same
    group: the headers stay, with them the identifiers, the called applications
    stay, and inner groups are only added.

    * `Group.activeApp_eq_ok_iff`, `Timeline.openGroup_eq_ok_iff`: the lookups
      and the opening of a group;
    * `Transaction.identity` with `identity_embed` and `identity_modifyCall`;
    * `Group.Continues`: the same group, later. -/

namespace AvmSandbox

open AvmSandbox.Action

/-! ## Transactions -/

namespace Transaction

/-- The application that a transaction calls, if it is a call. -/
def app? (t : Transaction) : Option UInt64 := t.call?.map Call.app

/-- What no step changes of a transaction. -/
def identity (t : Transaction) : Header × Option UInt64 := (t.header, t.app?)

variable {t : Transaction}

/-- The call of a transaction is asked for with success when its body is one. -/
theorem call_eq_ok_iff {call : AppCall} : t.call = .ok call ↔ t.body = .call call := by
  obtain ⟨header, body⟩ := t
  cases body <;> simp [Transaction.call, call?]

/-- A transaction has the application of the call in its body. -/
theorem app?_eq_some_iff {app : UInt64} :
    t.app? = some app ↔ ∃ call, t.body = .call call ∧ call.app = app := by
  obtain ⟨header, body⟩ := t
  cases body <;> simp [app?, call?]

/-- References are kept in the call and do not touch what identifies the transaction. -/
theorem identity_setLayout (t : Transaction) (layout : Layout) :
    (t.setLayout layout).identity = t.identity := by
  obtain ⟨header, body⟩ := t
  cases body <;> cases layout <;> rfl

/-- An encoding within the layout of a transaction leaves another layout. -/
theorem identity_embed {α : Type} (action : Encoding α) (t : Transaction) :
    Ends (embed action) t fun t' => t'.identity = t.identity := by
  refine Eq.trans ?_ (identity_setLayout t (action.run t.layout).2)
  rw [embed, run_get_bind]
  rcases action.run t.layout with ⟨_ | a, layout⟩ <;> rfl

/-- A change of a call keeps the identity when it keeps the application. -/
theorem identity_modifyCall {f : AppCall → Result AppCall}
    (h : ∀ c c', f c = .ok c' → c'.app = c.app) (t : Transaction) :
    Ends (modifyCall f) t fun t' => t'.identity = t.identity := by
  rw [modifyCall, ends_get_bind]
  refine ends_lift_bind rfl fun c hc => ends_lift_bind rfl fun c' hc' => ?_
  obtain ⟨header, body⟩ := t
  obtain rfl : body = .call c := call_eq_ok_iff.mp hc
  exact congrArg (fun app => (header, some app)) (h _ _ hc')

/-- The call of a transaction is changed in its place. -/
theorem yields_modifyCall_iff {f : AppCall → Result AppCall} {t' : Transaction} {u : Unit} :
    Yields (modifyCall f) t u t' ↔
      ∃ c c', t.body = .call c ∧ f c = .ok c' ∧ { t with body := .call c' } = t' := by
  rw [modifyCall, yields_get_bind, yields_lift_bind]
  simp only [yields_lift_bind, yields_set, call_eq_ok_iff]
  constructor
  · rintro ⟨c, hc, c', hc', h⟩
    exact ⟨c, c', hc, hc', h⟩
  · rintro ⟨c, c', hc, hc', h⟩
    exact ⟨c, hc, c', hc', h⟩

end Transaction

/-! ## Groups -/

/-- A deferred call brings its own transactions. -/
theorem GroupItem.flatMap_deferred (d : DeferredCall) :
    [deferred d].flatMap transactions = d.transactions :=
  List.flatMap_singleton ..

namespace Group

variable {g : Group}

/-- Numbering adds no transaction and loses none. -/
@[simp] theorem length_number (start : Nat) (ts : List Transaction) :
    (number start ts).length = ts.length := by
  induction ts generalizing start with
  | nil => rfl
  | cons t ts ih => rw [number, List.length_cons, List.length_cons, ih]

/-- A place in the group does not change which application is called. -/
@[simp] theorem map_app?_number (start : Nat) (ts : List Transaction) :
    (number start ts).map Transaction.app? = ts.map Transaction.app? := by
  induction ts generalizing start with
  | nil => rfl
  | cons t ts ih =>
      rw [number, List.map_cons, List.map_cons, ih]
      rfl

/-- A group has an active call when the transaction at the active index is one. -/
theorem activeCall_eq_ok_iff {call : AppCall} :
    g.activeCall = .ok call ↔
      ∃ t, g.transactions[g.active]? = some t ∧ t.body = .call call := by
  rw [activeCall, bind_eq_ok_iff, activeTransaction, transaction]
  cases g.transactions[g.active]? with
  | none => simp
  | some t => simp [Transaction.call_eq_ok_iff]

/-- The called application is that of the active transaction, which is a call. -/
theorem activeApp_eq_ok_iff {app : UInt64} :
    g.activeApp = .ok app ↔
      ∃ t call, g.transactions[g.active]? = some t ∧ t.body = .call call ∧ call.app = app := by
  rw [activeApp, bind_eq_ok_iff]
  simp only [activeCall_eq_ok_iff, pure_eq_ok_iff]
  constructor
  · rintro ⟨call, ⟨t, ht, hcall⟩, happ⟩
    exact ⟨t, call, ht, hcall, happ⟩
  · rintro ⟨t, call, ht, hcall, happ⟩
    exact ⟨call, ⟨t, ht, hcall⟩, happ⟩

/-- The called application by position. -/
theorem activeApp_eq_ok_iff_getElem? {app : UInt64} :
    g.activeApp = .ok app ↔
      (g.transactions.map Transaction.app?)[g.active]? = some (some app) := by
  rw [activeApp_eq_ok_iff, List.getElem?_map, Option.map_eq_some_iff]
  simp only [Transaction.app?_eq_some_iff]
  constructor
  · rintro ⟨t, call, ht, hcall⟩
    exact ⟨t, ht, call, hcall⟩
  · rintro ⟨t, ht, call, hcall⟩
    exact ⟨t, call, ht, hcall⟩

/-- A transaction of a group is found by its place. -/
theorem transaction_eq_ok_iff {index : Nat} {t : Transaction} :
    g.transaction index = .ok t ↔ g.transactions[index]? = some t := by
  rw [transaction]
  cases g.transactions[index]? <;> simp

/-- Any place in a group can be made active, and nothing else changes with it. -/
theorem setActive_eq_ok_iff {g' : Group} {index : Nat} :
    g.setActive index = .ok g' ↔ index < g.size ∧ g' = { g with active := index } := by
  rw [setActive]
  by_cases hlt : index < g.size <;> simp [hlt, eq_comm]

/-- An index that is named is taken when it is a place in the group. -/
theorem chooseActive_some_eq_ok_iff {size index position : Nat} :
    chooseActive size (some index) = .ok position ↔ index < size ∧ position = index := by
  rw [chooseActive]
  by_cases hlt : index < size <;> simp [hlt, eq_comm]

/-- The active transaction is the one at the active index. -/
theorem activeForChange_eq_ok_iff {t : Transaction} :
    g.activeForChange = .ok t ↔ g.transactions[g.active]? = some t := by
  rw [activeForChange]
  cases g.transactions[g.active]? <;> simp

/-- What is set as the active transaction is the active transaction. -/
theorem activeForChange_setActiveTransaction {t : Transaction} (t' : Transaction)
    (ht : g.activeForChange = .ok t) : (g.setActiveTransaction t').activeForChange = .ok t' := by
  obtain ⟨hlt, -⟩ := List.getElem?_eq_some_iff.mp (activeForChange_eq_ok_iff.mp ht)
  exact activeForChange_eq_ok_iff.mpr (List.getElem?_set_self hlt)

/-- Items form a group when there are not too many transactions and the active one is among
    them. -/
theorem new_eq_ok_iff {items : List GroupItem} {active : Option Nat} {ts : List Transaction}
    (hts : items.flatMap GroupItem.transactions = ts) :
    new items active = .ok g ↔
      ts.length ≤ Limits.group ∧ ∃ position, chooseActive ts.length active = .ok position ∧
        g = {
          transactions := number 0 ts
          active := position
          scratch := List.replicate ts.length .fresh } := by
  rw [new, hts]
  by_cases h : ts.length > Limits.group
  · rw [if_pos h]
    simp [bind_eq_ok_iff, Nat.not_le.mpr h]
  · rw [if_neg h, bind_eq_ok_iff]
    simp only [pure_eq_ok_iff, Nat.not_lt.mp h, true_and]
    exact exists_congr fun position => and_congr_right fun _ => eq_comm

end Group

/-! ## Composition -/

namespace Group

variable {g g' : Group}

/-- A composition is opened where none is open, for a call that does not clear state. -/
theorem beginInner_eq_ok_iff :
    g.beginInner = .ok g' ↔
      g.composing = none ∧
        (∃ t call, g.transactions[g.active]? = some t ∧ t.body = .call call ∧
          call.onCompletion ≠ .clearState) ∧
        g' = { g with composing := some [{}] } := by
  rw [beginInner, activeTransaction, transaction]
  cases hcomposing : g.composing with
  | some params => simp [bind_eq_ok_iff]
  | none =>
      cases ht : g.transactions[g.active]? with
      | none => simp [bind_eq_ok_iff]
      | some t =>
          obtain ⟨header, body⟩ := t
          cases body with
          | call call =>
              show (if call.onCompletion = .clearState then _ else _ : Result Group) = .ok g' ↔ _
              by_cases hclears : call.onCompletion = .clearState
              · rw [if_pos hclears]
                refine iff_of_false (fun h => by cases h) ?_
                rintro ⟨-, ⟨t, call', ht', hcall', hkeeps⟩, -⟩
                cases ht'
                cases hcall'
                exact hkeeps hclears
              · rw [if_neg hclears, pure_eq_ok_iff]
                constructor
                · rintro rfl
                  exact ⟨rfl, ⟨_, call, rfl, rfl, hclears⟩, rfl⟩
                · rintro ⟨-, -, rfl⟩
                  rfl
          | _ => simp [Transaction.call?, bind_eq_ok_iff]

/-- A composition that is open gets another blank transaction at its end. -/
theorem nextInner_eq_ok_iff :
    g.nextInner = .ok g' ↔
      ∃ params, g.composing = some params ∧
        g' = { g with composing := some (params ++ [{}]) } := by
  rw [nextInner]
  cases g.composing <;> simp [eq_comm]

/-- A change of the newest transaction composed leaves the composition open. -/
theorem exists_of_modifyInner {f : InnerParams → Result InnerParams}
    (h : g.modifyInner f = .ok g') :
    ∃ params p, g.composing.isSome = true ∧ g' = { g with composing := some (params ++ [p]) } := by
  rw [modifyInner] at h
  split at h
  · cases h
  · next params hparams =>
      split at h
      · cases h
      · obtain ⟨p, -, h⟩ := bind_eq_ok_iff.mp h
        obtain rfl := pure_eq_ok_iff.mp h
        exact ⟨params.dropLast, p, by rw [hparams]; rfl, rfl⟩

end Group

/-! ## The same group, later -/

namespace Group

/-- Whether a group may have become another one by the steps of a contract. -/
structure Continues (g g' : Group) : Prop where
  identities : g'.transactions.map Transaction.identity = g.transactions.map Transaction.identity
  active : g'.active = g.active
  innerGroups : g.innerGroups <+: g'.innerGroups

variable {g g' : Group}

theorem Continues.refl (g : Group) : g.Continues g := ⟨rfl, rfl, List.prefix_refl _⟩

/-- A group that goes on twice goes on. -/
theorem Continues.trans {g'' : Group} (h : g.Continues g') (h' : g'.Continues g'') :
    g.Continues g'' :=
  ⟨h'.identities.trans h.identities, h'.active.trans h.active, h.innerGroups.trans h'.innerGroups⟩

/-- A group that goes on is empty exactly if it was. -/
theorem Continues.isEmpty_eq (h : g.Continues g') : g'.isEmpty = g.isEmpty := by
  have hempty := congrArg List.isEmpty h.identities
  rw [List.isEmpty_map, List.isEmpty_map] at hempty
  exact hempty

/-- A group goes on when its active transaction is replaced by one of the same identity. -/
theorem continues_setActiveTransaction {t t' : Transaction} (ht : g.activeForChange = .ok t)
    (h : t'.identity = t.identity) : g.Continues (g.setActiveTransaction t') := by
  refine ⟨?_, rfl, List.prefix_refl _⟩
  have hat : (g.transactions.map Transaction.identity)[g.active]? = some t.identity := by
    rw [List.getElem?_map, activeForChange_eq_ok_iff.mp ht, Option.map_some]
  obtain ⟨hlt, hat⟩ := List.getElem?_eq_some_iff.mp hat
  rw [setActiveTransaction, List.map_set, h, ← hat, List.set_getElem_self]

/-- Logging changes the active call, but neither its header nor its application. -/
theorem continues_appendLog {entry : Bytes} (h : g.appendLog entry = .ok g') : g.Continues g' := by
  obtain ⟨t, ht, h⟩ := bind_eq_ok_iff.mp h
  obtain ⟨header, body⟩ := t
  cases body with
  | call c =>
      obtain ⟨log, -, h⟩ := bind_eq_ok_iff.mp h
      obtain rfl := pure_eq_ok_iff.mp h
      exact continues_setActiveTransaction ht rfl
  | _ => cases h

/-- Storing in scratch space changes the active call, but neither its header nor its application. -/
theorem continues_storeScratch {slot : Nat} {v : StackValue} (h : g.storeScratch slot v = .ok g') :
    g.Continues g' := by
  rw [storeScratch] at h
  cases hs : g.scratch[g.active]? with
  | none =>
      rw [hs] at h
      cases h
  | some s =>
      rw [hs] at h
      obtain ⟨s', -, h⟩ := bind_eq_ok_iff.mp h
      obtain rfl := pure_eq_ok_iff.mp h
      exact ⟨rfl, rfl, List.prefix_refl _⟩

/-- A group that differs in what is composed is the same group. -/
theorem continues_composing (g : Group) (composing : Option (List InnerParams)) :
    g.Continues { g with composing } := ⟨rfl, rfl, List.prefix_refl _⟩

/-- Beginning a composition leaves the transactions of the group alone. -/
theorem continues_beginInner (h : g.beginInner = .ok g') : g.Continues g' := by
  obtain ⟨-, -, rfl⟩ := beginInner_eq_ok_iff.mp h
  exact continues_composing g _

theorem continues_nextInner (h : g.nextInner = .ok g') : g.Continues g' := by
  obtain ⟨params, -, rfl⟩ := nextInner_eq_ok_iff.mp h
  exact continues_composing g _

/-- Assigning a field of a composed transaction leaves those of the group alone. -/
theorem continues_modifyInner {f : InnerParams → Result InnerParams}
    (h : g.modifyInner f = .ok g') : g.Continues g' := by
  obtain ⟨params, p, -, rfl⟩ := exists_of_modifyInner h
  exact continues_composing g _

/-- Submitted transactions are added to those that were there. -/
theorem continues_pushInnerGroup {submitted : List Transaction}
    (h : g.pushInnerGroup submitted = .ok g') : g.Continues g' := by
  obtain ⟨t, ht, h⟩ := bind_eq_ok_iff.mp h
  obtain rfl := pure_eq_ok_iff.mp h
  obtain ⟨header, body⟩ := t
  cases body with
  | call c =>
      have hissued : g.Continues (g.setActiveTransaction
          ⟨header, .call { c with inner := c.inner ++ submitted }⟩) :=
        continues_setActiveTransaction ht rfl
      exact hissued.trans ⟨rfl, rfl, List.prefix_append ..⟩
  | _ => exact ⟨rfl, rfl, List.prefix_append ..⟩

end Group

/-! ## Timelines -/

namespace Timeline

variable {tl tl' : Timeline}

/-- The open group is asked for with success when there is one. -/
theorem group_eq_ok_iff {g : Group} : tl.group = .ok g ↔ tl.current = some g := by
  rw [group]
  cases tl.current <;> simp

/-- An identifier does not change which application is called. -/
@[simp] theorem map_app?_identify (counter : Nat) (ts : List Transaction) :
    (identify counter ts).map Transaction.app? = ts.map Transaction.app? := by
  induction ts generalizing counter with
  | nil => rfl
  | cons t ts ih =>
      rw [identify, List.map_cons, List.map_cons, ih]
      rfl

/-- A group is opened when none is open. -/
theorem openGroup_eq_ok_iff {items : List GroupItem} {active : Option Nat} :
    tl.openGroup items active = .ok tl' ↔
      tl.current = none ∧ ∃ g, Group.new items active = .ok g ∧
        tl' = { tl with
          current := some { g with transactions := identify tl.counter g.transactions }
          counter := tl.counter + g.size } := by
  rw [openGroup]
  cases tl.current with
  | none =>
      show (Group.new items active >>= fun g => pure _) = .ok tl' ↔ _
      simp only [bind_eq_ok_iff, pure_eq_ok_iff, true_and]
      exact exists_congr fun g => and_congr_right fun _ => eq_comm
  | some g => simp [bind_eq_ok_iff]

/-- A group is opened where none is open, and the past stays. -/
theorem opened_of_openGroup {items : List GroupItem} {active : Option Nat}
    (h : tl.openGroup items active = .ok tl') :
    tl.current = none ∧ ∃ g, tl'.current = some g ∧ tl'.history = tl.history := by
  obtain ⟨hnone, g, -, rfl⟩ := openGroup_eq_ok_iff.mp h
  exact ⟨hnone, _, rfl, rfl⟩

end Timeline

end AvmSandbox
