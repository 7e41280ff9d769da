import AvmSandbox.Proofs.Chain.Submission
import AvmSandbox.Proofs.Ledger.Effects
import Mathlib.Data.List.Range

/-! # Groups in order — at every point of a session

    Transactions get their positions twice: when items are flattened into a
    group, and when a group of inner transactions is staged, where what a call
    carries from an earlier submission is put in front of it.  Nothing moves them
    afterwards, and no step, whether or not it fails, leaves a group that is too
    large, an active position out of range or a composition without transactions.

    * `Group.InOrder` and `Group.WellFormed`: the conditions on transactions and on
      groups, with one lemma for each step of a contract;
    * `Staging.positions_addAll`: staging keeps transactions in order;
    * `Chain.exists_commit_issues`: the transactions that a submission issues;
    * `Timeline.Operation` and `Timeline.Reachable`: the steps, and the timelines
      that they lead to;
    * `Timeline.groups_of_reachable`: the groups of all of them. -/

namespace AvmSandbox

open AvmSandbox.Action

/-! ## Order -/

/-- The positions that transactions have been given. -/
def positions (ts : List Transaction) : List Nat := ts.map fun t => t.header.groupIndex

namespace Group

/-- Whether transactions make up a group: there are not too many, and each has its position. -/
structure InOrder (ts : List Transaction) : Prop where
  size : ts.length ≤ Limits.group
  positions : positions ts = List.range ts.length

/-- Numbering gives consecutive places. -/
theorem positions_number (start : Nat) (ts : List Transaction) :
    AvmSandbox.positions (number start ts) = List.range' start ts.length := by
  induction ts generalizing start with
  | nil => rfl
  | cons t ts ih =>
      show start :: AvmSandbox.positions (number (start + 1) ts) = _
      rw [ih, List.length_cons, List.range'_succ]

end Group

/-- Identifiers do not change places. -/
theorem positions_identify (counter : Nat) (ts : List Transaction) :
    positions (Timeline.identify counter ts) = positions ts := by
  induction ts generalizing counter with
  | nil => rfl
  | cons t ts ih =>
      show t.header.groupIndex :: positions (Timeline.identify (counter + 1) ts) = _
      rw [ih]
      rfl

/-- Transactions with the same positions are as many. -/
theorem length_of_positions {ts ts' : List Transaction} (h : positions ts' = positions ts) :
    ts'.length = ts.length := by
  have hlength := congrArg List.length h
  rwa [positions, positions, List.length_map, List.length_map] at hlength

/-! ## Groups -/

namespace Group

/-- Whether a group is as it should be: its transactions are in order, the active one is among
    them, each has its scratch space, a composition holds a transaction, and so does every inner
    group, in order.  (A scratch space has 256 slots by its type.) -/
structure WellFormed (g : Group) : Prop where
  transactions : InOrder g.transactions
  active : g.isEmpty = false → g.active < g.size
  scratch : g.scratch.length = g.size
  composing : g.composing ≠ some []
  innerGroups : ∀ ts ∈ g.innerGroups, ts ≠ [] ∧ InOrder ts

variable {g g' : Group}

/-- Being in order is a matter of the places only. -/
theorem InOrder.of_positions {ts ts' : List Transaction} (h : InOrder ts)
    (hsame : AvmSandbox.positions ts' = AvmSandbox.positions ts) : InOrder ts' := by
  have hlength := length_of_positions hsame
  exact ⟨hlength ▸ h.size, by rw [hsame, h.positions, hlength]⟩

/-- A group that goes on has the places that it had. -/
theorem Continues.positions_eq (h : g.Continues g') :
    positions g'.transactions = positions g.transactions := by
  have hheaders := congrArg (List.map fun i : Header × Option UInt64 => i.1.groupIndex) h.identities
  rw [List.map_map, List.map_map] at hheaders
  exact hheaders

/-- The same group, later, is as it should be when scratch space, composition and inner groups
    are. -/
theorem WellFormed.of_continues (h : g.WellFormed) (hcontinues : g.Continues g')
    (hscratch : g'.scratch.length = g.scratch.length) (hcomposing : g'.composing ≠ some [])
    (hinner : ∀ ts ∈ g'.innerGroups, ts ≠ [] ∧ InOrder ts) : g'.WellFormed := by
  have hpositions := hcontinues.positions_eq
  have hsize : g'.size = g.size := length_of_positions hpositions
  refine ⟨h.transactions.of_positions hpositions, ?_, ?_, hcomposing, hinner⟩
  · intro hsome
    rw [hcontinues.isEmpty_eq] at hsome
    rw [hcontinues.active, hsize]
    exact h.active hsome
  · rw [hscratch, hsize, h.scratch]

/-- A new group is as it should be, with identifiers or without. -/
theorem wellFormed_new {items : List GroupItem} {active : Option Nat} (counter : Nat)
    (h : new items active = .ok g) :
    WellFormed { g with transactions := Timeline.identify counter g.transactions } := by
  obtain ⟨hsize, position, hactive, rfl⟩ := (new_eq_ok_iff rfl).mp h
  generalize items.flatMap GroupItem.transactions = ts at hsize hactive
  have hpositions : positions (Timeline.identify counter (number 0 ts)) = List.range ts.length := by
    rw [positions_identify, positions_number, List.range_eq_range']
  have hlength : (Timeline.identify counter (number 0 ts)).length = ts.length := by
    rw [length_of_positions (positions_identify counter _), length_number]
  refine ⟨⟨hlength ▸ hsize, hlength ▸ hpositions⟩, ?_, ?_, by simp, by simp⟩
  · intro hsome
    show position < (Timeline.identify counter (number 0 ts)).length
    rw [hlength]
    cases active with
    | some i =>
        obtain ⟨hlt, rfl⟩ := chooseActive_some_eq_ok_iff.mp hactive
        exact hlt
    | none =>
        cases hactive
        have hne : Timeline.identify counter (number 0 ts) ≠ [] := by
          intro hnil
          rw [isEmpty, hnil] at hsome
          cases hsome
        have hpos := List.length_pos_of_ne_nil hne
        omega
  · show (List.replicate ts.length Scratch.fresh).length = _
    rw [List.length_replicate]
    exact hlength.symm

/-- A place that is made active is one of the group. -/
theorem wellFormed_setActive {index : Nat} (h : g.WellFormed) (hset : g.setActive index = .ok g') :
    g'.WellFormed := by
  obtain ⟨hlt, rfl⟩ := setActive_eq_ok_iff.mp hset
  exact ⟨h.transactions, fun _ => hlt, h.scratch, h.composing, h.innerGroups⟩

/-- Logging leaves a group well-formed. -/
theorem wellFormed_appendLog {entry : Bytes} (h : g.WellFormed)
    (hlog : g.appendLog entry = .ok g') : g'.WellFormed := by
  have hcontinues := continues_appendLog hlog
  obtain ⟨⟨header, body⟩, -, hlog⟩ := bind_eq_ok_iff.mp hlog
  cases body with
  | call c =>
      obtain ⟨log, -, hlog⟩ := bind_eq_ok_iff.mp hlog
      obtain rfl := pure_eq_ok_iff.mp hlog
      exact h.of_continues hcontinues rfl h.composing h.innerGroups
  | _ => cases hlog

/-- Storing in scratch space leaves a group well-formed. -/
theorem wellFormed_storeScratch {slot : Nat} {v : StackValue} (h : g.WellFormed)
    (hstore : g.storeScratch slot v = .ok g') : g'.WellFormed := by
  have hcontinues := continues_storeScratch hstore
  rw [storeScratch] at hstore
  split at hstore
  · obtain ⟨s, -, hstore⟩ := bind_eq_ok_iff.mp hstore
    obtain rfl := pure_eq_ok_iff.mp hstore
    exact h.of_continues hcontinues List.length_set h.composing h.innerGroups
  · cases hstore

/-- The composition of a group may be any that holds a transaction, or none. -/
theorem WellFormed.composed {composing : Option (List InnerParams)} (h : g.WellFormed)
    (hcomposing : composing ≠ some []) : WellFormed { g with composing } :=
  h.of_continues (continues_composing g composing) rfl hcomposing h.innerGroups

theorem wellFormed_beginInner (g g' : Group) (h : g.WellFormed) (hbegin : g.beginInner = .ok g') :
    g'.WellFormed := by
  obtain ⟨-, -, rfl⟩ := beginInner_eq_ok_iff.mp hbegin
  exact h.composed (by simp)

/-- A composition is no part of what makes a group well-formed. -/
theorem wellFormed_nextInner (h : g.WellFormed) (hnext : g.nextInner = .ok g') :
    g'.WellFormed := by
  obtain ⟨params, -, rfl⟩ := nextInner_eq_ok_iff.mp hnext
  exact h.composed (by simp)

theorem wellFormed_modifyInner {f : InnerParams → Result InnerParams} (h : g.WellFormed)
    (hmodify : g.modifyInner f = .ok g') : g'.WellFormed := by
  obtain ⟨params, p, -, rfl⟩ := exists_of_modifyInner hmodify
  exact h.composed (by simp)

/-- The active call takes over an inner group. -/
theorem WellFormed.issued {t : Transaction} {call : AppCall} {submitted : List Transaction}
    (h : g.WellFormed) (ht : g.transactions[g.active]? = some t) (hcall : t.body = .call call)
    (hsome : submitted ≠ []) (horder : InOrder submitted) :
    WellFormed { g with
      transactions := g.transactions.set g.active
        { t with body := .call { call with inner := call.inner ++ submitted } }
      innerGroups := g.innerGroups ++ [submitted]
      composing := none } := by
  obtain ⟨header, body⟩ := t
  obtain rfl : body = .call call := hcall
  have hissued : g.Continues (g.setActiveTransaction
      ⟨header, .call { call with inner := call.inner ++ submitted }⟩) :=
    continues_setActiveTransaction (activeForChange_eq_ok_iff.mpr ht) rfl
  refine h.of_continues (hissued.trans ⟨rfl, rfl, List.prefix_append ..⟩) rfl (by simp) ?_
  intro ts hts
  rcases List.mem_append.mp hts with hts | hts
  · exact h.innerGroups ts hts
  · rw [List.mem_singleton.mp hts]
    exact ⟨hsome, horder⟩

end Group

/-! ## Staging -/

/-- Whether an observer leaves the headers of the calls that it watches alone. -/
def Observer.KeepsHeaders (o : Observer) : Prop :=
  ∀ t t', o.react t = .ok t' → t'.header = t.header

/-- Where no observer changes headers, all together change none. -/
theorem Observer.header_notify {observers : List Observer} {t t' : Transaction}
    (hkeeps : ∀ o ∈ observers, o.KeepsHeaders) (h : notify observers t = .ok t') :
    t'.header = t.header := by
  have hfold : ∀ (os : List Observer) (t : Transaction), (∀ o ∈ os, o.KeepsHeaders) →
      os.foldlM (fun t o => o.react t) t = .ok t' → t'.header = t.header := by
    intro os
    induction os with
    | nil =>
        intro t _ h
        cases h
        rfl
    | cons o os ih =>
        intro t hkeeps h
        rw [List.forall_mem_cons] at hkeeps
        rw [List.foldlM_cons] at h
        obtain ⟨middle, hreact, h⟩ := bind_eq_ok_iff.mp h
        rw [ih middle hkeeps.2 h, hkeeps.1 t middle hreact]
  rw [notify] at h
  split at h
  · exact hfold _ t (fun o ho => hkeeps o (List.mem_of_mem_filter ho)) h
  · cases h
    rfl

/-- The effects of a transaction leave its header alone. -/
theorem header_applyEffects {t t' : Transaction} {l l' : Ledger}
    (h : applyEffects t l = .ok (t', l')) : t'.header = t.header := by
  cases effect_of_applyEffects h <;> rfl

namespace Staging

variable {issuer : Address} {observers : List Observer} {s s' : Staging} {u : Unit}

/-- One more transaction stands behind those it carries. -/
theorem positions_add {p : InnerParams} (hkeeps : ∀ o ∈ observers, o.KeepsHeaders)
    (hs : positions s.done = List.range s.done.length)
    (h : Yields (add issuer observers p) s u s') :
    positions s'.done = List.range s'.done.length ∧ s.done.length < s'.done.length := by
  obtain ⟨t, l, t', heffects, hnotify, rfl⟩ := yields_add_iff.mp h
  have hheader := (Observer.header_notify hkeeps hnotify).trans (header_applyEffects heffects)
  have hposition : t'.header.groupIndex = s.done.length + p.nested.length := by
    rw [hheader]
    rfl
  have hlength : (s.done ++ Group.number s.done.length p.nested ++ [t']).length
      = s.done.length + p.nested.length + 1 := by
    rw [List.length_append, List.length_append, Group.length_number, List.length_singleton]
  refine ⟨?_, ?_⟩
  · show positions (s.done ++ Group.number s.done.length p.nested ++ [t']) = List.range _
    have hrange : List.range (s.done.length + p.nested.length)
        = List.range s.done.length ++ List.range' s.done.length p.nested.length := by
      have happend := List.range'_append_1 (s := 0) (m := s.done.length) (n := p.nested.length)
      rw [Nat.zero_add] at happend
      rw [List.range_eq_range', List.range_eq_range', happend]
    rw [hlength, List.range_succ, hrange, ← hs, ← Group.positions_number, ← hposition]
    simp only [positions, List.map_append, List.map_singleton]
  · show s.done.length < (s.done ++ Group.number s.done.length p.nested ++ [t']).length
    rw [hlength]
    omega

/-- **STAGING KEEPS TRANSACTIONS IN ORDER**, those carried included, and adds at least one for each
    that is composed. -/
theorem positions_addAll {ps : List InnerParams} (hkeeps : ∀ o ∈ observers, o.KeepsHeaders)
    (hs : positions s.done = List.range s.done.length)
    (h : Yields (addAll issuer observers ps) s u s') :
    positions s'.done = List.range s'.done.length ∧
      s.done.length + ps.length ≤ s'.done.length := by
  induction ps generalizing s with
  | nil =>
      obtain ⟨-, rfl⟩ := yields_pure.mp h
      exact ⟨hs, Nat.le_refl _⟩
  | cons p ps ih =>
      obtain ⟨_, middle, hadd, hrest⟩ := yields_bind.mp h
      obtain ⟨hmiddle, hlt⟩ := positions_add hkeeps hs hadd
      obtain ⟨hdone, hle⟩ := ih hmiddle hrest
      refine ⟨hdone, ?_⟩
      rw [List.length_cons]
      omega

end Staging

/-! ## Submission -/

namespace Timeline

/-- Whether a timeline comes out of another one by a submission: the active call of the open group
    issues what was submitted, which is a group of its own, and its composition is closed.  No
    other transaction changes, and no finished group. -/
def Issues (tl : Timeline) (submitted : List Transaction) (tl' : Timeline) : Prop :=
  submitted ≠ [] ∧ Group.InOrder submitted ∧ tl'.history = tl.history ∧
    ∃ g t call, tl.current = some g ∧ g.transactions[g.active]? = some t ∧ t.body = .call call ∧
      tl'.current = some { g with
        transactions := g.transactions.set g.active
          { t with body := .call { call with inner := call.inner ++ submitted } }
        innerGroups := g.innerGroups ++ [submitted]
        composing := none }

/-- Whether all groups of a timeline are as they should be, and no observer touches headers. -/
structure WellFormed (tl : Timeline) : Prop where
  current : ∀ g, tl.current = some g → g.WellFormed
  history : ∀ g ∈ tl.history, g.WellFormed
  observers : ∀ o ∈ tl.observers, o.KeepsHeaders

variable {tl tl' : Timeline} {g : Group} {submitted : List Transaction}

/-- A well-formed group may take the place of the open one. -/
theorem WellFormed.withGroup (h : tl.WellFormed) (hg : g.WellFormed) :
    WellFormed { tl with current := some g } := by
  refine ⟨?_, h.history, h.observers⟩
  intro g' hg'
  cases hg'
  exact hg

/-- A change that leaves groups well-formed leaves the timeline so. -/
theorem WellFormed.modifyGroup {f : Group → Result Group} (h : tl.WellFormed)
    (hf : ∀ g g', g.WellFormed → f g = .ok g' → g'.WellFormed)
    (hmodify : tl.modifyGroup f = .ok tl') : tl'.WellFormed := by
  obtain ⟨g, hg, hmodify⟩ := bind_eq_ok_iff.mp hmodify
  obtain ⟨g', hg', hmodify⟩ := bind_eq_ok_iff.mp hmodify
  obtain rfl := pure_eq_ok_iff.mp hmodify
  exact h.withGroup (hf g g' (h.current g (group_eq_ok_iff.mp hg)) hg')

/-- What is issued is in order, and so is the group that it is added to. -/
theorem WellFormed.issues (h : tl.WellFormed) (hissues : tl.Issues submitted tl')
    (hobservers : tl'.observers = tl.observers) : tl'.WellFormed := by
  obtain ⟨hsome, horder, hhistory, g, t, call, hg, ht, hcall, hcurrent⟩ := hissues
  refine ⟨?_, hhistory ▸ h.history, hobservers ▸ h.observers⟩
  intro g' hg'
  rw [hcurrent] at hg'
  cases hg'
  exact (h.current g hg).issued ht hcall hsome horder

end Timeline

namespace Chain

variable {c c₁ c' : Chain} {s : Staging} {submitted : List Transaction}

/-- **WHAT WAS STAGED IS ISSUED** by the active call, and by nobody else. -/
theorem exists_commit_issues (h : c.timeline.WellFormed) (hstage : Yields stageInner c s c₁) :
    ∃ c₂, Yields (commitInner s) c₁ s.done c₂ ∧ c.timeline.Issues s.done c₂.timeline ∧
      c₂.timeline.observers = c.timeline.observers := by
  obtain ⟨g, app, record, params, hg, happ, -, hparams, -, hadd, hsize, hc₁⟩ :=
    yields_stageInner_iff.mp hstage
  obtain ⟨t, call, ht, hcall, -⟩ := Group.activeApp_eq_ok_iff.mp happ
  have hopen : c₁.timeline.current = some { g with composing := none } := by rw [hc₁]
  obtain ⟨hpositions, hle⟩ := Staging.positions_addAll h.observers rfl hadd
  refine ⟨_, yields_commitInner s hopen ht hcall, ⟨?_, ⟨hsize, hpositions⟩, ?_, ?_⟩, ?_⟩
  · -- a composition holds a transaction, so something was staged
    intro hnil
    rw [hnil, List.length_nil] at hle
    obtain rfl : params = [] := List.eq_nil_of_length_eq_zero (by omega)
    exact (h.current g hg).composing hparams
  · rw [hc₁]
  · exact ⟨g, t, call, hg, ht, hcall, rfl⟩
  · rw [hc₁]

/-- A submission issues one group in order. -/
theorem issues_of_yields_submitInner (h : c.timeline.WellFormed)
    (hsubmit : Yields submitInner c submitted c') : c.timeline.Issues submitted c'.timeline := by
  obtain ⟨s, c₁, hstage, hcommit⟩ := yields_bind.mp hsubmit
  obtain ⟨c₂, hdone, hissues, -⟩ := exists_commit_issues h hstage
  cases hcommit.symm.trans hdone
  exact hissues

/-- A submission leaves the timeline well-formed, successful or failing. -/
theorem wellFormed_submitInner (h : c.timeline.WellFormed) :
    Ends submitInner c fun c' => c'.timeline.WellFormed := by
  have hstage : Ends stageInner c fun c' => c'.timeline.WellFormed := by
    refine ends_stageInner h ?_ ?_
    · intro g hg
      exact h.withGroup ((h.current g hg).composed (by simp))
    · intro c counter hc
      exact ⟨hc.current, hc.history, hc.observers⟩
  rw [Ends] at hstage
  rw [Ends, submitInner, run_bind]
  rcases hrun : stageInner.run c with ⟨e | s, c₁⟩
  · rw [hrun] at hstage
    exact hstage
  · obtain ⟨c₂, hcommit, hissues, hobservers⟩ := exists_commit_issues h hrun
    dsimp only
    rw [show (commitInner s).run c₁ = _ from hcommit]
    exact h.issues hissues hobservers

/-- A single transaction is composed first, which neither adds nor changes a transaction. -/
theorem issues_of_yields_submitSingle {p : InnerParams} {t : Transaction}
    (h : c.timeline.WellFormed) (hsubmit : Yields (submitSingle p) c t c') :
    ∃ submitted, submitted.getLast? = some t ∧ c.timeline.Issues submitted c'.timeline := by
  rw [submitSingle, yields_get_bind] at hsubmit
  obtain ⟨begun, hbegun, hsubmit⟩ := yields_lift_bind.mp hsubmit
  obtain ⟨filled, hfilled, hsubmit⟩ := yields_lift_bind.mp hsubmit
  rw [yields_modify_bind] at hsubmit
  obtain ⟨submitted, c₁, hsubmit, hlast⟩ := yields_bind.mp hsubmit
  have hwell := (h.modifyGroup Group.wellFormed_beginInner hbegun).modifyGroup
    (fun _ _ => Group.wellFormed_modifyInner) hfilled
  have hissues := issues_of_yields_submitInner hwell hsubmit
  obtain ⟨g, hg, hbegun⟩ := bind_eq_ok_iff.mp hbegun
  obtain ⟨g₁, hbegin, hbegun⟩ := bind_eq_ok_iff.mp hbegun
  obtain ⟨-, -, rfl⟩ := Group.beginInner_eq_ok_iff.mp hbegin
  obtain rfl := pure_eq_ok_iff.mp hbegun
  obtain rfl := Except.ok.inj hfilled
  obtain ⟨hsome, horder, hhistory, g₂, t₂, call, hg₂, ht, hcall, hcurrent⟩ := hissues
  cases hg₂
  cases ht₂ : submitted.getLast? with
  | none =>
      rw [ht₂] at hlast
      exact absurd hlast not_yields_throw
  | some last =>
      rw [ht₂] at hlast
      obtain ⟨rfl, rfl⟩ := yields_pure.mp hlast
      exact ⟨submitted, ht₂, hsome, horder, hhistory, g, t₂, call,
        Timeline.group_eq_ok_iff.mp hg, ht, hcall, hcurrent⟩

/-- A single submission leaves the timeline well-formed, too. -/
theorem wellFormed_submitSingle (p : InnerParams) (h : c.timeline.WellFormed) :
    Ends (submitSingle p) c fun c' => c'.timeline.WellFormed := by
  rw [submitSingle, ends_get_bind]
  refine ends_lift_bind h fun begun hbegun => ends_lift_bind h fun filled hfilled => ?_
  have hwell := (h.modifyGroup Group.wellFormed_beginInner hbegun).modifyGroup
    (fun _ _ => Group.wellFormed_modifyInner) hfilled
  rw [ends_modify_bind]
  refine ends_bind (wellFormed_submitInner hwell) (fun _ h => h) fun submitted c' h => ?_
  split <;> exact h

end Chain

/-! ## Sessions -/

namespace Timeline

variable {tl tl' : Timeline}

/-- What can be done to the groups.  A submission takes effect on some ledger. -/
inductive Operation where
  | openGroup (items : List GroupItem) (active : Option Nat)
  | finish
  | setActive (index : Nat)
  | appendLog (entry : Bytes)
  | storeScratch (slot : Nat) (v : StackValue)
  | beginInner
  | nextInner
  | assignInner (field : InnerField)
  | submitInner (ledger : Ledger)
  | submitSingle (ledger : Ledger) (p : InnerParams)

namespace Operation

/-- The timeline to go on with when a step that changes nothing unless it succeeds is taken. -/
def orSame (tl : Timeline) : Result Timeline → Timeline
  | .ok tl' => tl'
  | .error _ => tl

/-- The timeline to go on with, whether or not the operation succeeds. -/
def after (tl : Timeline) : Operation → Timeline
  | openGroup items active => orSame tl (tl.openGroup items active)
  | finish => orSame tl tl.finish
  | setActive index => orSame tl (tl.modifyGroup fun g => g.setActive index)
  | appendLog entry => orSame tl (tl.modifyGroup fun g => g.appendLog entry)
  | storeScratch slot v => orSame tl (tl.modifyGroup fun g => g.storeScratch slot v)
  | beginInner => orSame tl (tl.modifyGroup Group.beginInner)
  | nextInner => orSame tl (tl.modifyGroup Group.nextInner)
  | assignInner field => orSame tl (tl.modifyGroup fun g => g.assignInner field)
  | submitInner ledger => (Chain.submitInner.run ⟨ledger, tl⟩).2.timeline
  | submitSingle ledger p => ((Chain.submitSingle p).run ⟨ledger, tl⟩).2.timeline

end Operation

/-- A step that fails leaves the timeline as it was. -/
theorem WellFormed.orSame {r : Result Timeline} (h : tl.WellFormed)
    (hr : ∀ tl', r = .ok tl' → tl'.WellFormed) : (Operation.orSame tl r).WellFormed := by
  cases r with
  | ok tl' => exact hr tl' rfl
  | error e => exact h

/-- A group is numbered when it is opened. -/
theorem WellFormed.openGroup {items : List GroupItem} {active : Option Nat} (h : tl.WellFormed)
    (hopen : tl.openGroup items active = .ok tl') : tl'.WellFormed := by
  obtain ⟨-, g, hg, rfl⟩ := openGroup_eq_ok_iff.mp hopen
  exact ⟨(h.withGroup (Group.wellFormed_new tl.counter hg)).current, h.history, h.observers⟩

/-- The group that ends goes to the past as it is. -/
theorem WellFormed.finish (h : tl.WellFormed) (hfinish : tl.finish = .ok tl') :
    tl'.WellFormed := by
  rw [Timeline.finish] at hfinish
  split at hfinish
  · next g hg =>
      cases hfinish
      refine ⟨by simp, ?_, h.observers⟩
      intro g' hg'
      rcases List.mem_append.mp hg' with hg' | hg'
      · exact h.history g' hg'
      · rw [List.mem_singleton.mp hg']
        exact h.current g hg
  · cases hfinish

/-- **EVERY STEP LEAVES THE GROUPS AS THEY SHOULD BE**, whether or not it succeeds. -/
theorem wellFormed_after (op : Operation) (h : tl.WellFormed) : (op.after tl).WellFormed := by
  cases op with
  | openGroup items active => exact h.orSame fun tl' htl' => h.openGroup htl'
  | finish => exact h.orSame fun tl' htl' => h.finish htl'
  | setActive index =>
      exact h.orSame fun tl' htl' => h.modifyGroup (fun _ _ => Group.wellFormed_setActive) htl'
  | appendLog entry =>
      exact h.orSame fun tl' htl' => h.modifyGroup (fun _ _ => Group.wellFormed_appendLog) htl'
  | storeScratch slot v =>
      exact h.orSame fun tl' htl' => h.modifyGroup (fun _ _ => Group.wellFormed_storeScratch) htl'
  | beginInner =>
      exact h.orSame fun tl' htl' => h.modifyGroup Group.wellFormed_beginInner htl'
  | nextInner =>
      exact h.orSame fun tl' htl' => h.modifyGroup (fun _ _ => Group.wellFormed_nextInner) htl'
  | assignInner field =>
      exact h.orSame fun tl' htl' => h.modifyGroup (fun _ _ => Group.wellFormed_modifyInner) htl'
  | submitInner ledger => exact Chain.wellFormed_submitInner (c := ⟨ledger, tl⟩) h
  | submitSingle ledger p => exact Chain.wellFormed_submitSingle (c := ⟨ledger, tl⟩) p h

/-- The timelines in use: new ones, and what any step makes of one, successful or failing.  Between
    the steps the observers may change, as long as none of them touches headers. -/
inductive Reachable : Timeline → Prop where
  | new (encoding : ReferenceEncoding) : Reachable (new encoding)
  | observed {tl : Timeline} (observers : List Observer)
      (hkeeps : ∀ o ∈ observers, o.KeepsHeaders) : Reachable tl → Reachable { tl with observers }
  | step {tl : Timeline} (op : Operation) : Reachable tl → Reachable (op.after tl)

theorem reachable_run (ops : List Operation) (h : tl.Reachable) :
    (ops.foldl Operation.after tl).Reachable := by
  induction ops generalizing tl with
  | nil => exact h
  | cons op ops ih => exact ih (.step op h)

/-- Timelines in use are well-formed, by induction on what was done. -/
theorem wellFormed_of_reachable (h : tl.Reachable) : tl.WellFormed := by
  induction h with
  | new encoding => exact ⟨by simp [new], by simp [new], by simp [new]⟩
  | observed observers hkeeps _ ih => exact ⟨ih.current, ih.history, hkeeps⟩
  | step op _ ih => exact wellFormed_after op ih

/-- **GROUPS ARE IN ORDER AT EVERY POINT OF A SESSION.**  Each of them, open or finished, has at most
    sixteen transactions in the order of their positions, an active one among them, a scratch
    space for each of them, no empty composition, and only inner groups of the same kind that are
    not empty.  A submission that succeeds has the active call issue what was submitted, and
    changes no other transaction. -/
theorem groups_of_reachable (h : tl.Reachable) :
    (∀ g ∈ tl.history ++ tl.current.toList, g.WellFormed) ∧
    (∀ ledger submitted c, Chain.submitInner.run ⟨ledger, tl⟩ = (.ok submitted, c) →
      tl.Issues submitted c.timeline) ∧
    ∀ ledger p t c, (Chain.submitSingle p).run ⟨ledger, tl⟩ = (.ok t, c) →
      ∃ submitted, submitted.getLast? = some t ∧ tl.Issues submitted c.timeline := by
  have hwell := wellFormed_of_reachable h
  refine ⟨?_, ?_, ?_⟩
  · intro g hg
    rcases List.mem_append.mp hg with hg | hg
    · exact hwell.history g hg
    · exact hwell.current g (Option.mem_toList.mp hg)
  · intro ledger submitted c hrun
    exact Chain.issues_of_yields_submitInner (c := ⟨ledger, tl⟩) hwell hrun
  · intro ledger p t c hrun
    exact Chain.issues_of_yields_submitSingle (c := ⟨ledger, tl⟩) hwell hrun

/-- A ledger with application 7. -/
def callLedger : Ledger :=
  { Ledger.new {} with applications := Table.insert {} 7 (.new 7 .zero {}) }

/-- A call of application 7 has issued another one, which carried a payment, and composes. -/
def issuedTimeline : Timeline :=
  let carried : Transaction := ⟨{ groupIndex := 5 }, .payment {}⟩
  [Operation.openGroup [.single (.ofCall .zero { app := 7 })] none,
    .submitSingle callLedger { body := .call { app := 7, inner := [carried] } },
    .beginInner].foldl Operation.after (new .index)

theorem groups_of_issuedTimeline :
    issuedTimeline.Reachable ∧
      (∃ g, issuedTimeline.current = some g ∧ g.WellFormed ∧
        g.innerGroups.map positions = [[0, 1]]) ∧
      ∃ submitted c, Chain.submitInner.run ⟨callLedger, issuedTimeline⟩ = (.ok submitted, c) ∧
        issuedTimeline.Issues submitted c.timeline := by
  have h : issuedTimeline.Reachable := reachable_run _ (.new .index)
  obtain ⟨hwell, hissues, -⟩ := groups_of_reachable h
  refine ⟨h, ?_, ?_⟩
  · have hinner : issuedTimeline.current.map (fun g => g.innerGroups.map positions)
        = some [[0, 1]] := by decide +kernel
    obtain ⟨g, hg, hinner⟩ := Option.map_eq_some_iff.mp hinner
    exact ⟨g, hg, hwell g (List.mem_append_right _ (Option.mem_toList.mpr hg)), hinner⟩
  · have hok : (Chain.submitInner.run ⟨callLedger, issuedTimeline⟩).1.isOk = true := by
      decide +kernel
    rcases hrun : Chain.submitInner.run ⟨callLedger, issuedTimeline⟩ with ⟨e | submitted, c⟩
    · rw [hrun] at hok
      cases hok
    · exact ⟨submitted, c, rfl, hissues callLedger submitted c hrun⟩

end Timeline

end AvmSandbox
