import AvmSandbox.Proofs.Chain.Groups
import AvmSandbox.Proofs.Ledger.Logs
import AvmSandbox.Proofs.Ledger.Reachable
import AvmSandbox.Proofs.Sandbox.Creation
import AvmSandbox.Proofs.Sandbox.Scopes

/-! # Log records — what a call has logged and what its application has

    An entry goes to the log of the active call and then to that of the called
    application, and so does the value that a method returns.  The call keeps the
    last of the returned values only, the application keeps them all; and the
    call has taken an entry before it turns out that there is no application.

    * `Session.Shows`: the two logs, as a session shows them;
    * `Session.Silent`, `Session.Logged`: what a step adds to neither, and to both;
    * `Logging`: the programs that log in no other way, and what their methods
      return, `Logging.returned`;
    * `Logging.logged_run`: by induction on the program;
    * `Logging.log_records`: the two logs behind a scope. -/

namespace AvmSandbox

open AvmSandbox.Action

/-! ## The log of a call -/

namespace CallLog

/-- The log behind further entries, and returned values behind these. -/
def grown (log : CallLog) (entries : List Bytes) (returned : List EncodedValue) : CallLog where
  plain := log.plain ++ entries
  returned := returned.getLast?.or log.returned

variable {log log' : CallLog}

theorem grown_nil (log : CallLog) : log.grown [] [] = log := by
  rw [grown, List.append_nil]
  rfl

/-- Nothing follows a returned value but another one. -/
theorem grown_grown {entries entries' : List Bytes} {returned returned' : List EncodedValue} :
    (log.grown entries returned).grown entries' returned' =
      log.grown (entries ++ entries') (returned ++ returned') := by
  rw [grown, grown, grown, List.append_assoc, List.getLast?_append, Option.or_assoc]

/-- An entry is taken while no value is returned yet and the limits leave room for it. -/
theorem append_eq_ok_iff {entry : Bytes} :
    log.append entry = .ok log' ↔ log.returned = none ∧
      checkLimits (log.plain.length + 1) (size log.plain + entry.length) = .ok () ∧
      log' = log.grown [entry] [] := by
  obtain ⟨plain, returned⟩ := log
  cases returned with
  | some e => simp [append, bind_eq_ok_iff]
  | none =>
      show (checkLimits (plain.length + 1) (size plain + entry.length) >>= fun _ =>
        pure ⟨plain ++ [entry], none⟩) = .ok log' ↔ _
      rw [bind_eq_ok_iff]
      constructor
      · rintro ⟨_, hlimits, h⟩
        exact ⟨rfl, hlimits, (pure_eq_ok_iff.mp h).symm⟩
      · rintro ⟨-, hlimits, rfl⟩
        exact ⟨(), hlimits, rfl⟩

/-- A returned value is added behind the values returned before, and to no entry. -/
theorem eq_of_setReturn {e : EncodedValue} (h : log.setReturn e = .ok log') :
    log' = log.grown [] [e] := by
  obtain ⟨_, -, h⟩ := bind_eq_ok_iff.mp h
  obtain rfl := pure_eq_ok_iff.mp h
  rw [grown, List.append_nil]
  rfl

/-- A call that had logged nothing shows all that it has logged when at most one value was
    returned. -/
theorem entries_grown_iff {entries : List Bytes} {returned : List EncodedValue} :
    entries ++ returned.map EncodedValue.log = (grown {} entries returned).entries ↔
      returned.length ≤ 1 := by
  cases hlast : returned.getLast? with
  | none =>
      obtain rfl := List.getLast?_eq_none_iff.mp hlast
      simp [grown, CallLog.entries]
  | some e =>
      obtain ⟨earlier, rfl⟩ := List.getLast?_eq_some_iff.mp hlast
      have hentries : (grown {} entries (earlier ++ [e])).entries = entries ++ [e.log] := by
        rw [grown, hlast]
        rfl
      rw [hentries, List.map_append, List.map_singleton, List.length_append, List.length_singleton]
      constructor
      · intro h
        have hlength := congrArg List.length h
        simp only [List.length_append, List.length_map, List.length_singleton] at hlength
        omega
      · intro h
        obtain rfl : earlier = [] := List.length_eq_zero_iff.mp (by omega)
        rfl

end CallLog

/-! ## The active call -/

namespace Group

variable {g g' : Group} {c : AppCall}

/-- Whether the active call is the same but for what is not logged. -/
def KeepsCall (g g' : Group) : Prop :=
  ∀ c, g.activeCall = .ok c → ∃ c', g'.activeCall = .ok c' ∧ c'.app = c.app ∧ c'.log = c.log

theorem keepsCall_of_same (h : g'.transactions = g.transactions) (hactive : g'.active = g.active) :
    g.KeepsCall g' := by
  intro c hc
  refine ⟨c, ?_, rfl, rfl⟩
  rw [activeCall_eq_ok_iff] at hc ⊢
  rwa [h, hactive]

/-- A call put in the place of the active transaction is the active call. -/
theorem activeCall_setActiveTransaction {t t' : Transaction} (ht : g.activeForChange = .ok t)
    (hc : t'.body = .call c) : (g.setActiveTransaction t').activeCall = .ok c := by
  have hactive := activeForChange_setActiveTransaction t' ht
  exact activeCall_eq_ok_iff.mpr ⟨t', activeForChange_eq_ok_iff.mp hactive, hc⟩

/-- The active transaction may change in all that is not logged. -/
theorem keepsCall_setActiveTransaction {t t' : Transaction} (ht : g.activeForChange = .ok t)
    (h : ∀ c, t.body = .call c → ∃ c', t'.body = .call c' ∧ c'.app = c.app ∧ c'.log = c.log) :
    g.KeepsCall (g.setActiveTransaction t') := by
  intro c hc
  obtain ⟨u, hu, hbody⟩ := activeCall_eq_ok_iff.mp hc
  obtain rfl : t = u := Option.some.inj ((activeForChange_eq_ok_iff.mp ht).symm.trans hu)
  obtain ⟨c', hc', hsame⟩ := h c hbody
  exact ⟨c', activeCall_setActiveTransaction ht hc', hsame⟩

theorem keepsCall_storeScratch {slot : Nat} {v : StackValue} (h : g.storeScratch slot v = .ok g') :
    g.KeepsCall g' := by
  rw [storeScratch] at h
  split at h
  · obtain ⟨s, -, h⟩ := bind_eq_ok_iff.mp h
    obtain rfl := pure_eq_ok_iff.mp h
    exact keepsCall_of_same rfl rfl
  · cases h

theorem keepsCall_beginInner (h : g.beginInner = .ok g') : g.KeepsCall g' := by
  obtain ⟨-, -, rfl⟩ := beginInner_eq_ok_iff.mp h
  exact keepsCall_of_same rfl rfl

theorem keepsCall_nextInner (h : g.nextInner = .ok g') : g.KeepsCall g' := by
  obtain ⟨params, -, rfl⟩ := nextInner_eq_ok_iff.mp h
  exact keepsCall_of_same rfl rfl

theorem keepsCall_modifyInner {f : InnerParams → Result InnerParams}
    (h : g.modifyInner f = .ok g') : g.KeepsCall g' := by
  obtain ⟨params, p, -, rfl⟩ := exists_of_modifyInner h
  exact keepsCall_of_same rfl rfl

end Group

namespace Session

variable {ω : Type} {x y z : Session ω} {id : UInt64} {log : CallLog} {logs : List Bytes}

/-- Whether `c` is the active call of the open group. -/
def Calls (x : Session ω) (c : AppCall) : Prop :=
  ∃ g, x.timeline.current = some g ∧ g.activeCall = .ok c

/-- Whether a step adds nothing to the log of the active call and to those of applications. -/
def Silent (x y : Session ω) : Prop :=
  ∀ c, x.Calls c → x.ledger.KeepsLogs y.ledger ∧
    ∃ c', y.Calls c' ∧ c'.app = c.app ∧ c'.log = c.log

theorem Silent.refl (x : Session ω) : x.Silent x := fun c hc => ⟨.refl _, c, hc, rfl, rfl⟩

theorem Silent.trans (h : x.Silent y) (h' : y.Silent z) : x.Silent z := by
  intro c hc
  obtain ⟨hledger, c', hc', happ, hlog⟩ := h c hc
  obtain ⟨hledger', c'', hc'', happ', hlog'⟩ := h' c' hc'
  exact ⟨hledger.trans hledger', c'', hc'', happ'.trans happ, hlog'.trans hlog⟩

/-- A ledger that keeps the logs of its applications can be put in place unheard. -/
theorem silent_withLedger {l : Ledger} (h : x.ledger.KeepsLogs l) : x.Silent (x.withLedger l) :=
  fun c hc => ⟨h, c, hc, rfl, rfl⟩

/-- A change of the current group is unheard when the group keeps its active call. -/
theorem silent_withTimeline {g g' : Group} {tl : Timeline} (hg : x.timeline.current = some g)
    (hg' : tl.current = some g') (h : g.KeepsCall g') : x.Silent (x.withTimeline tl) := by
  rintro c ⟨_, hcurrent, hc⟩
  obtain rfl := Option.some.inj (hg.symm.trans hcurrent)
  obtain ⟨c', hc', hsame⟩ := h c hc
  exact ⟨.refl _, c', ⟨g', hg', hc'⟩, hsame⟩

theorem silent_modifyGroup {f : Group → Result Group} {tl : Timeline}
    (hf : ∀ g g', f g = .ok g' → g.KeepsCall g') (h : x.timeline.modifyGroup f = .ok tl) :
    x.Silent (x.withTimeline tl) := by
  obtain ⟨g, hg, h⟩ := bind_eq_ok_iff.mp h
  obtain ⟨g', hg', h⟩ := bind_eq_ok_iff.mp h
  obtain rfl := pure_eq_ok_iff.mp h
  exact silent_withTimeline (Timeline.group_eq_ok_iff.mp hg) rfl (hf g g' hg')

/-- Whether the active call, of application `id`, has logged `log` and the application that the
    ledger has under `id` has logged `logs`. -/
structure Shows (x : Session ω) (id : UInt64) (log : CallLog) (logs : List Bytes) : Prop where
  call : ∃ c, x.Calls c ∧ c.app = id ∧ c.log = log
  registered : id < x.ledger.nextAppId
  application : x.ledger.log? id = some logs

/-- What a step adds to the two logs: entries, unless a value was returned before, and behind
    them the returned values. -/
def Logged (id : UInt64) (x y : Session ω) (returned : List EncodedValue) : Prop :=
  ∀ log logs, x.Shows id log logs → ∃ entries, (log.returned.isSome = true → entries = []) ∧
    y.Shows id (log.grown entries returned) (logs ++ entries ++ returned.map EncodedValue.log)

theorem Shows.silent (h : x.Shows id log logs) (hsilent : x.Silent y) : y.Shows id log logs := by
  obtain ⟨c, hc, happ, hlog⟩ := h.call
  obtain ⟨hledger, c', hc', happ', hlog'⟩ := hsilent c hc
  refine ⟨⟨c', hc', happ'.trans happ, hlog'.trans hlog⟩, ?_, ?_⟩
  · exact UInt64.lt_of_lt_of_le h.registered hledger.nextAppId
  · rw [hledger.logs id h.registered, h.application]

theorem Shows.hasGroup (h : x.Shows id log logs) : x.timeline.hasGroup = true := by
  obtain ⟨c, ⟨g, hg, hc⟩, -⟩ := h.call
  obtain ⟨t, ht, -⟩ := Group.activeCall_eq_ok_iff.mp hc
  rw [Timeline.hasGroup, hg]
  show (!g.transactions.isEmpty) = true
  cases htransactions : g.transactions with
  | nil =>
      rw [htransactions] at ht
      cases ht
  | cons _ _ => rfl

/-- What is unheard by every application logs nothing for the one that is watched. -/
theorem Silent.logged (h : x.Silent y) : Logged id x y [] := by
  intro log logs hshows
  refine ⟨[], fun _ => rfl, ?_⟩
  rw [CallLog.grown_nil, List.map_nil, List.append_nil, List.append_nil]
  exact hshows.silent h

/-- **WHAT IS LOGGED ADDS UP**, for no entry comes behind a returned value. -/
theorem Logged.trans {returned returned' : List EncodedValue} (h : Logged id x y returned)
    (h' : Logged id y z returned') : Logged id x z (returned ++ returned') := by
  intro log logs hshows
  obtain ⟨entries, hentries, hmiddle⟩ := h log logs hshows
  obtain ⟨entries', hentries', hlast⟩ := h' _ _ hmiddle
  refine ⟨entries ++ entries', fun hreturned => ?_, ?_⟩
  · have hafter : (log.grown entries returned).returned.isSome = true := by
      rw [CallLog.grown, Option.isSome_or, hreturned, Bool.or_true]
    rw [hentries hreturned, hentries' hafter, List.append_nil]
  · rw [CallLog.grown_grown] at hlast
    have hlogs : logs ++ entries ++ returned.map EncodedValue.log ++ entries'
        ++ returned'.map EncodedValue.log
          = logs ++ (entries ++ entries') ++ (returned ++ returned').map EncodedValue.log := by
      cases hreturned : returned.getLast? with
      | none =>
          obtain rfl := List.getLast?_eq_none_iff.mp hreturned
          simp
      | some e =>
          have hafter : (log.grown entries returned).returned.isSome = true := by
            rw [CallLog.grown, hreturned]
            rfl
          rw [hentries' hafter]
          simp
    rwa [hlogs] at hlast

end Session

/-! ## Steps that log nothing -/

namespace Chain

/-- A chain as part of a session. -/
def within {ω : Type} (c : Chain) (record : ω) (s : Sandbox) : Session ω :=
  ⟨{ s with ledger := c.ledger, timeline := c.timeline }, record⟩

variable {ω : Type} {record : ω} {s : Sandbox}

/-- Chains with the same records show the same active call and ledger. -/
theorem silent_of_recorded {c c' : Chain} (h : recorded c' = recorded c) :
    (c.within record s).Silent (c'.within record s) := by
  obtain ⟨hledger, -, -⟩ := eq_of_recorded h
  have hcurrent := congrArg (fun c => c.timeline.current) h
  simp only [recorded] at hcurrent
  rintro call ⟨g, hg, hcall⟩
  have hg : c.timeline.current = some g := hg
  rw [hg, Option.map_some, Option.map_eq_some_iff] at hcurrent
  obtain ⟨g', hg', hsame⟩ := hcurrent
  rw [Group.mk.injEq] at hsame
  obtain ⟨call', hcall', hkept⟩ := Group.keepsCall_of_same hsame.1 hsame.2.1 call hcall
  refine ⟨?_, call', ⟨g', hg', hcall'⟩, hkept⟩
  show c.ledger.KeepsLogs c'.ledger
  rw [hledger]
  exact .refl _

/-- Inner groups are submitted on the chain alone, where the call that submits them logs nothing. -/
theorem silent_submitInner (c : Chain) :
    Ends submitInner c fun c' => (c.within record s).Silent (c'.within record s) := by
  have hrecorded : recorded (stageInner.run c).2 = recorded c := recorded_stageInner c
  rw [Ends, submitInner, run_bind]
  rcases hstage : stageInner.run c with ⟨e | staged, c'⟩
  · rw [hstage] at hrecorded
    exact silent_of_recorded hrecorded
  · obtain ⟨g, app, application, params, hg, happ, -, -, -, hadd, -, rfl⟩ :=
      yields_stageInner_iff.mp hstage
    obtain ⟨t, call, ht, hcall, -⟩ := Group.activeApp_eq_ok_iff.mp happ
    have hcommit := yields_commitInner staged
      (c := { c with timeline := { c.timeline with
        current := some { g with composing := none }, counter := staged.counter } }) rfl ht hcall
    rw [Yields] at hcommit
    dsimp only
    rw [hcommit]
    rintro call' ⟨_, hcurrent, hcall'⟩
    obtain rfl := Option.some.inj (hg.symm.trans hcurrent)
    refine ⟨Ledger.keepsLogs_applyAll (Staging.applyAll_of_addAll hadd), ?_⟩
    obtain ⟨u, hu, hbody⟩ := Group.activeCall_eq_ok_iff.mp hcall'
    obtain rfl := Option.some.inj (ht.symm.trans hu)
    obtain rfl := Body.call.inj (hcall.symm.trans hbody)
    obtain ⟨hlt, -⟩ := List.getElem?_eq_some_iff.mp ht
    refine ⟨{ call with inner := call.inner ++ staged.done }, ⟨_, rfl, ?_⟩, rfl, rfl⟩
    exact Group.activeCall_eq_ok_iff.mpr ⟨_, List.getElem?_set_self hlt, rfl⟩

theorem silent_submitSingle (p : InnerParams) (c : Chain) :
    Ends (submitSingle p) c fun c' => (c.within record s).Silent (c'.within record s) := by
  rw [submitSingle, ends_get_bind]
  refine ends_lift_bind (.refl _) fun tl htl => ends_lift_bind (.refl _) fun tl' htl' => ?_
  have hbegin : (c.within record s).Silent ((c.within record s).withTimeline tl) :=
    Session.silent_modifyGroup (fun _ _ h => Group.keepsCall_beginInner h) htl
  have hreplace : ((c.within record s).withTimeline tl).Silent
      ((c.within record s).withTimeline tl') :=
    Session.silent_modifyGroup (fun _ _ h => Group.keepsCall_modifyInner h) htl'
  rw [ends_modify_bind]
  refine ends_bind (ends_mono (silent_submitInner _) fun c' h => (hbegin.trans hreplace).trans h)
    (fun _ h => h) fun ts c' h => ?_
  split <;> exact h

end Chain

namespace Run

variable {ω α β : Type}

/-- Whether an action logs nothing, however it ends. -/
def Quiet (action : Run ω α) : Prop := ∀ x, Ends action x fun y => x.Silent y

/-- Two quiet steps, the second chosen by the answer of the first, are quiet together. -/
theorem quiet_bind {first : Run ω α} {next : α → Run ω β} (hfirst : Quiet first)
    (hnext : ∀ a, Quiet (next a)) : Quiet (first >>= next) := fun x =>
  ends_bind_trans (R := Session.Silent) Session.Silent.trans (hfirst x) hnext

theorem quiet_read {action : Run ω α} (h : ∀ x, (action.run x).2 = x) : Quiet action := by
  intro x
  rw [Ends, h]
  exact .refl _

/-- A change of the group is quiet when every outcome keeps the active call. -/
theorem quiet_onGroup {f : Group → Result Group} (hf : ∀ g g', f g = .ok g' → g.KeepsCall g') :
    Quiet (onGroup f : Run ω Unit) :=
  fun _ => ends_onTimeline (.refl _) fun _ htl => Session.silent_modifyGroup hf htl

/-- A change of the active transaction is quiet when it keeps the application and the log of a call,
    also where the change fails half-way. -/
theorem quiet_onActiveTransaction {action : Amending α}
    (h : ∀ t c, t.body = .call c → Ends action t fun t' =>
      ∃ c', t'.body = .call c' ∧ c'.app = c.app ∧ c'.log = c.log) :
    Quiet (onActiveTransaction action : Run ω α) := by
  refine fun x => ends_onActiveTransaction (.refl _) fun g t hg ht => ?_
  exact Session.silent_withTimeline hg rfl (Group.keepsCall_setActiveTransaction ht (h t))

/-- An encoding within the layout of the active call changes its reference arrays only. -/
theorem quiet_embed (action : Encoding α) :
    Quiet (onActiveTransaction (Transaction.embed action) : Run ω α) := by
  refine quiet_onActiveTransaction fun t c hc => ?_
  obtain ⟨header, body⟩ := t
  obtain rfl : body = .call c := hc
  rw [Ends, Transaction.embed, run_get_bind]
  rcases action.run (Transaction.layout ⟨header, .call c⟩) with ⟨e | a, layout⟩ <;> cases layout
  all_goals exact ⟨_, rfl, rfl, rfl⟩

/-- An action on the chain is quiet when it is so within every session around the chain. -/
theorem quiet_onChain {action : ChainAction α}
    (h : ∀ (c : Chain) (record : ω) (s : Sandbox), Ends action c fun c' =>
      (c.within record s).Silent (c'.within record s)) :
    Quiet (onChain action : Run ω α) := by
  intro x
  rw [Ends, run_onChain]
  exact h ⟨x.ledger, x.timeline⟩ x.record x.sandbox

theorem quiet_submitInner : Quiet (submitInner : Run ω (List Transaction)) :=
  quiet_onChain fun c _ _ => Chain.silent_submitInner c

theorem quiet_submitSingle (p : InnerParams) : Quiet (submitSingle p : Run ω Transaction) :=
  quiet_onChain fun c _ _ => Chain.silent_submitSingle p c

/-! ## Steps that log -/

/-- The log of the active call and that of its application behind an entry of either kind. -/
theorem shows_of_appendLog {x : Session ω} {id : UInt64} {log log' : CallLog} {logs : List Bytes}
    {g : Group} {t : Transaction} {c : AppCall} {entry : Bytes} {l : Ledger}
    (h : x.Shows id log logs) (ht : g.activeForChange = .ok t)
    (hl : x.ledger.appendLog id entry = .ok l) (happ : c.app = id) :
    ((x.withTimeline { x.timeline with
      current := some (g.setActiveTransaction { t with body := .call { c with log := log' } }) }
      ).withLedger l).Shows id log' (logs ++ [entry]) := by
  obtain ⟨hnext, hlogs⟩ := Ledger.log?_of_appendLog hl
  refine ⟨⟨_, ⟨_, rfl, Group.activeCall_setActiveTransaction ht rfl⟩, happ, rfl⟩, ?_, ?_⟩
  · show id < l.nextAppId
    rw [hnext]
    exact h.registered
  · show l.log? id = _
    rw [hlogs, if_pos rfl, h.application]
    rfl

/-- An entry goes to the log of the active call first, if that takes it. -/
theorem run_log {x : Session ω} {g : Group} {t : Transaction} {c : AppCall} (entry : Bytes)
    (hg : x.timeline.current = some g) (ht : g.activeForChange = .ok t)
    (hc : t.body = .call c) :
    (log entry).run x =
      match c.log.append entry with
      | .error e => (.error e, x)
      | .ok log =>
          (onLedger fun l => l.appendLog c.app entry).run (x.withTimeline { x.timeline with
            current := some (g.setActiveTransaction { t with body := .call { c with log } }) }) := by
  have happ : g.activeApp = .ok c.app :=
    Group.activeApp_eq_ok_iff.mpr ⟨t, c, Group.activeForChange_eq_ok_iff.mp ht, hc, rfl⟩
  obtain ⟨header, body⟩ := t
  obtain rfl : body = .call c := hc
  have happend : g.appendLog entry = (c.log.append entry >>= fun log =>
      pure (g.setActiveTransaction ⟨header, .call { c with log }⟩)) := by
    rw [Group.appendLog, ht]
    rfl
  rw [log, run_bind, run_group, Timeline.group, hg]
  dsimp only
  rw [run_lift_bind, happ]
  dsimp only
  rw [run_bind, onGroup, run_onTimeline, Timeline.modifyGroup, Timeline.group, hg]
  simp only [ok_bind, happend]
  cases c.log.append entry with
  | error e => rfl
  | ok log => rfl

/-- What a program logs itself reaches the call and the ledger in one and the same place. -/
theorem logged_log (id : UInt64) (entry : Bytes) (x : Session ω) :
    Ends (log entry) x fun y => Session.Logged id x y [] := by
  intro log logs hshows
  obtain ⟨c, ⟨g, hg, hc⟩, rfl, rfl⟩ := hshows.call
  obtain ⟨t, ht, hbody⟩ := Group.activeCall_eq_ok_iff.mp hc
  rw [← Group.activeForChange_eq_ok_iff] at ht
  rw [run_log entry hg ht hbody]
  cases happend : c.log.append entry with
  | error e => exact (Session.Silent.refl x).logged c.log logs hshows
  | ok log' =>
      obtain ⟨hnone, -, rfl⟩ := CallLog.append_eq_ok_iff.mp happend
      obtain ⟨l, hl⟩ : ∃ l, x.ledger.appendLog c.app entry = .ok l :=
        Ledger.exists_modifyApplication hshows.application
      dsimp only
      rw [run_onLedger, Session.ledger_withTimeline, hl]
      refine ⟨[entry], fun hsome => ?_, ?_⟩
      · rw [hnone] at hsome
        cases hsome
      · rw [List.map_nil, List.append_nil]
        exact shows_of_appendLog hshows ht hl rfl

/-- A returned value goes to the log of the active call first, if that takes it. -/
theorem run_recordReturn {x : Session ω} {g : Group} {t : Transaction} {c : AppCall} (id : UInt64)
    (e : EncodedValue) (hg : x.timeline.current = some g) (ht : g.activeForChange = .ok t)
    (hc : t.body = .call c) :
    (recordReturn id e).run x =
      match c.log.setReturn e with
      | .error fault => (.error fault, x.withTimeline { x.timeline with
          current := some (g.setActiveTransaction t) })
      | .ok log =>
          (onLedger fun l => l.appendLog id e.log).run (x.withTimeline { x.timeline with
            current := some (g.setActiveTransaction { t with body := .call { c with log } }) }) := by
  obtain ⟨header, body⟩ := t
  obtain rfl : body = .call c := hc
  rw [recordReturn, run_bind, run_onActiveTransaction, hg]
  dsimp only
  rw [ht]
  dsimp only
  have hset : (Transaction.modifyCall fun c => return { c with log := ← c.log.setReturn e } :
      Amending Unit).run ⟨header, .call c⟩ = (c.log.setReturn e).casesOn
        (fun fault => (.error fault, ⟨header, .call c⟩))
        (fun log => (.ok (), ⟨header, .call { c with log }⟩)) := by
    rw [Transaction.modifyCall, run_get_bind]
    show (liftM (c.log.setReturn e >>= fun log => pure { c with log } : Result AppCall) >>=
      fun c => set (⟨header, .call c⟩ : Transaction) : Amending Unit).run _ = _
    rw [run_lift_bind]
    cases c.log.setReturn e <;> rfl
  rw [hset]
  cases c.log.setReturn e with
  | error fault => rfl
  | ok log => rfl

/-- The value in the result of a method, if it has returned one. -/
def returnedBy : Result (Option EncodedValue) → List EncodedValue
  | .ok encoded => encoded.toList
  | .error _ => []

/-- The end of a creation always succeeds for an application that there is. -/
theorem run_unmark {y : Session ω} {id : UInt64} {log : CallLog} {logs : List Bytes}
    (h : y.Shows id log logs) (encoded : Option EncodedValue) :
    ∃ l, y.ledger.KeepsLogs l ∧
      (do onLedger fun l => l.setCreating id false; return encoded : Run ω _).run y =
        (.ok encoded, y.withLedger l) := by
  obtain ⟨l, hl⟩ : ∃ l, y.ledger.setCreating id false = .ok l :=
    Ledger.exists_modifyApplication h.application
  refine ⟨l, Ledger.keepsLogs_setCreating hl, ?_⟩
  rw [run_bind, run_onLedger, hl]
  rfl

/-- The end of a method, from the encoding of what its body has returned. -/
theorem run_conclude (m : Method) (app : UInt64) (returned : Option Value) (x : Session ω) :
    (conclude m app returned).run x =
      match (onActiveTransaction (Transaction.embed (encodeReturn m returned))).run x with
      | (.error fault, y) => (.error fault, y)
      | (.ok none, y) => (do onLedger fun l => l.setCreating app false; return none).run y
      | (.ok (some e), y) =>
          (do recordReturn app e; onLedger fun l => l.setCreating app false; return some e).run y := by
  rw [conclude, run_bind]
  rcases (onActiveTransaction (Transaction.embed (encodeReturn m returned))).run x with
    ⟨fault | encoded, y⟩
  · rfl
  · cases encoded <;> rfl

/-- The end of a method logs the value with which it succeeds. -/
theorem logged_conclude (m : Method) (id : UInt64) (returned : Option Value) (x : Session ω) :
    Session.Logged id x ((conclude m id returned).run x).2
      (returnedBy ((conclude m id returned).run x).1) := by
  intro log logs hshows
  have hsilent := quiet_embed (encodeReturn m returned) x
  rw [Ends] at hsilent
  rw [run_conclude]
  rcases hembed : (onActiveTransaction (Transaction.embed (encodeReturn m returned))).run x with
    ⟨fault | encoded, y⟩
  all_goals
    rw [hembed] at hsilent
    replace hsilent : x.Silent y := hsilent
  case error => exact hsilent.logged log logs hshows
  have hy := hshows.silent hsilent
  cases encoded with
  | none =>
      obtain ⟨l, hl, hrun⟩ := run_unmark hy none
      dsimp only
      rw [hrun]
      exact (hsilent.trans (Session.silent_withLedger hl)).logged log logs hshows
  | some e =>
      obtain ⟨c, ⟨g, hg, hc⟩, happ, rfl⟩ := hy.call
      obtain ⟨t, ht, hbody⟩ := Group.activeCall_eq_ok_iff.mp hc
      rw [← Group.activeForChange_eq_ok_iff] at ht
      dsimp only
      rw [run_bind, run_recordReturn id e hg ht hbody]
      cases hset : c.log.setReturn e with
      | error fault =>
          -- the transaction is put back as it was
          have hsame : y.Silent (y.withTimeline { y.timeline with
              current := some (g.setActiveTransaction t) }) :=
            Session.silent_withTimeline hg rfl
              (Group.keepsCall_setActiveTransaction ht fun c hc => ⟨c, hc, rfl, rfl⟩)
          exact (hsilent.trans hsame).logged c.log logs hshows
      | ok log' =>
          obtain ⟨l, hl⟩ : ∃ l, y.ledger.appendLog id e.log = .ok l :=
            Ledger.exists_modifyApplication hy.application
          obtain rfl := CallLog.eq_of_setReturn hset
          have hlogged : Session.Shows _ id (c.log.grown [] [e]) (logs ++ [] ++ [e.log]) :=
            shows_of_appendLog ((List.append_nil logs).symm ▸ hy) ht hl happ
          obtain ⟨l', hl', hrun⟩ := run_unmark hlogged (some e)
          dsimp only
          rw [run_onLedger, Session.ledger_withTimeline, hl]
          dsimp only
          rw [hrun]
          exact ⟨[], fun _ => rfl, hlogged.silent (Session.silent_withLedger hl')⟩

/-- An entry that is refused while there is the application has changed nothing. -/
theorem eq_of_log_eq_error {x y : Session ω} {c : AppCall} {record : Application} {entry : Bytes}
    {e : Fault} (hc : x.Calls c) (hrecord : x.ledger.application c.app = .ok record)
    (h : (log entry).run x = (.error e, y)) : y = x := by
  obtain ⟨g, hg, hc⟩ := hc
  obtain ⟨t, ht, hbody⟩ := Group.activeCall_eq_ok_iff.mp hc
  rw [run_log entry hg (Group.activeForChange_eq_ok_iff.mpr ht) hbody] at h
  cases happend : c.log.append entry with
  | error e =>
      rw [happend] at h
      cases h
      rfl
  | ok log =>
      obtain ⟨l, hl⟩ : ∃ l, x.ledger.appendLog c.app entry = .ok l :=
        ⟨_, bind_eq_ok_iff.mpr ⟨record, hrecord, rfl⟩⟩
      rw [happend] at h
      dsimp only at h
      rw [run_onLedger, Session.ledger_withTimeline, hl] at h
      cases h

/-- While there is no application, every entry is refused, and the call logs it if it takes it. -/
theorem log_of_unknown {x : Session ω} {c : AppCall} {e : Fault} (entry : Bytes) (hc : x.Calls c)
    (hunknown : x.ledger.application c.app = .error e) :
    ∃ e' y c', (log entry).run x = (.error e', y) ∧ y.ledger = x.ledger ∧ y.Calls c' ∧
      (∀ log, c.log.append entry = .ok log → c'.log = log) ∧
      ∀ e, c.log.append entry = .error e → c'.log = c.log := by
  obtain ⟨g, hg, hc⟩ := hc
  obtain ⟨t, ht, hbody⟩ := Group.activeCall_eq_ok_iff.mp hc
  rw [← Group.activeForChange_eq_ok_iff] at ht
  rw [run_log entry hg ht hbody]
  cases happend : c.log.append entry with
  | error e => exact ⟨e, x, c, rfl, rfl, ⟨g, hg, hc⟩, by simp, fun _ _ => rfl⟩
  | ok log =>
      have hrefused : x.ledger.appendLog c.app entry = .error e := by
        rw [Ledger.appendLog, Ledger.modifyApplication, hunknown]
        rfl
      dsimp only
      rw [run_onLedger, Session.ledger_withTimeline, hrefused]
      refine ⟨e, _, { c with log }, rfl, rfl, ⟨_, rfl, ?_⟩, fun log' h => ?_, fun e h => ?_⟩
      · exact Group.activeCall_setActiveTransaction ht rfl
      · exact Except.ok.inj h
      · cases h

end Run

/-! ## Programs -/

/-- A program that logs by the steps of a contract and by what its methods return, as a tree.
    What it does beside that, a failure among others, is `quiet`. -/
inductive Logging (ω : Type) : Type → Type 1 where
  | step {α : Type} (operation : Operation α) : Logging ω α
  | quiet {α : Type} (action : Run ω α) (h : Run.Quiet action) : Logging ω α
  | bind {α β : Type} (first : Logging ω α) (next : α → Logging ω β) : Logging ω β
  | attempt {α : Type} (body : Logging ω α) : Logging ω (Result α)
  | ensure {α : Type} (items : List GroupItem) (active : Option Nat) (body : Bool → Logging ω α) :
      Logging ω α
  | call (call : MethodCall) (body : List Value → Logging ω (Option Value)) :
      Logging ω (Option EncodedValue)
  | method (m : Method) (body : List Value → Logging ω (Option Value)) :
      Logging ω (Option EncodedValue)

namespace Logging

variable {ω α : Type}

/-- Runs a program. -/
def run {α : Type} : Logging ω α → Run ω α
  | step operation => operation.run
  | quiet action _ => action
  | bind first next => do (next (← first.run)).run
  | attempt body => Run.attempt body.run
  | ensure items active body => Run.withEnsuredScope items active fun own => (body own).run
  | call c body => Run.callMethod c fun args => (body args).run
  | method m body => Run.runActive m fun args => (body args).run

/-- The values returned in what follows an action. -/
def behind (action : Run ω α) (next : α → Session ω → List EncodedValue) (x : Session ω) :
    List EncodedValue :=
  match action.run x with
  | (.ok a, y) => next a y
  | (.error _, _) => []

/-- The values that methods of the active call return when a program runs in the open group, in
    order.  Methods that are called run their bodies in that group and return nothing to it. -/
def returned {α : Type} : Logging ω α → Session ω → List EncodedValue
  | step _, _ => []
  | quiet _ _, _ => []
  | bind first next, x => first.returned x ++ behind first.run (fun a => (next a).returned) x
  | attempt body, x => body.returned x
  | ensure _ _ body, x => (body false).returned x
  | call c body, x => (body c.args).returned x
  | method m body, x =>
      behind (Run.acceptCall m) (fun accepted => (body accepted.2).returned) x ++
        Run.returnedBy ((Run.runActive m fun args => (body args).run).run x).1

end Logging

namespace Run

variable {ω α β : Type} {x : Session ω} {id : UInt64} {values : List EncodedValue}

/-- A single operation of a program returns no value. -/
theorem logged_operation (o : Operation α) (x : Session ω) :
    Ends (o.run : Run ω α) x fun y => Session.Logged id x y [] := by
  cases o with
  | log entry => exact logged_log id entry x
  | storeScratch slot v => exact (quiet_onGroup (fun _ _ h => Group.keepsCall_storeScratch h) x).logged
  | loadScratch index slot =>
      have hquiet : Quiet (loadScratch index slot : Run ω StackValue) :=
        quiet_bind (quiet_read fun _ => rfl) fun g => quiet_read fun _ => rfl
      exact (hquiet x).logged
  | beginInner => exact (quiet_onGroup (fun _ _ h => Group.keepsCall_beginInner h) x).logged
  | nextInner => exact (quiet_onGroup (fun _ _ h => Group.keepsCall_nextInner h) x).logged
  | assignInner field => exact (quiet_onGroup (fun _ _ h => Group.keepsCall_modifyInner h) x).logged
  | submitInner => exact (quiet_submitInner x).logged
  | submitSingle p => exact (quiet_submitSingle p x).logged

/-- The values returned by two steps follow each other, those of the second as it runs behind the
    first. -/
theorem logged_bind {first : Run ω α} {next : α → Run ω β}
    {within : α → Session ω → List EncodedValue}
    (hfirst : Ends first x fun y => Session.Logged id x y values)
    (hnext : ∀ a y, Ends (next a) y fun z => Session.Logged id y z (within a y)) :
    Ends (first >>= next) x fun z =>
      Session.Logged id x z (values ++ Logging.behind first within x) := by
  rw [Ends] at hfirst
  rw [Ends, run_bind, Logging.behind]
  rcases hrun : first.run x with ⟨e | a, y⟩
  · rw [hrun] at hfirst
    dsimp only
    rw [List.append_nil]
    exact hfirst
  · rw [hrun] at hfirst
    exact hfirst.trans (hnext a y)

/-- A method logs what is logged within it and then the value with which it succeeds. -/
theorem logged_runActive {m : Method} {body : MethodBody ω}
    {within : List Value → Session ω → List EncodedValue}
    (hbody : ∀ args y, Ends (body args) y fun z => Session.Logged id y z (within args y))
    (x : Session ω) :
    Ends (runActive m body) x fun z => Session.Logged id x z
      (Logging.behind (acceptCall m) (fun accepted => within accepted.2) x ++
        returnedBy ((runActive m body).run x).1) := by
  intro log logs hshows
  have haccept := acceptCall_unchanged m x
  rw [Logging.behind, run_runActive]
  rcases hrun : (acceptCall m).run x with ⟨e | ⟨app, args⟩, y⟩
  all_goals
    rw [hrun] at haccept
    obtain rfl : y = x := haccept
  case error => exact (Session.Silent.refl y).logged log logs hshows
  -- the accepted call is the active one
  obtain ⟨g, hg, happ⟩ := activeApp_of_yields_acceptCall hrun
  obtain ⟨c, ⟨_, hcurrent, hc⟩, hid, -⟩ := hshows.call
  obtain rfl := Option.some.inj (hg.symm.trans hcurrent)
  obtain rfl : app = id := by
    rw [Group.activeApp, hc] at happ
    exact (pure_eq_ok_iff.mp happ).symm.trans hid
  have hwithin := hbody args y
  rw [Ends] at hwithin
  dsimp only
  rw [run_bind]
  rcases hbodyRun : (body args).run y with ⟨e | returned, z⟩
  · rw [hbodyRun] at hwithin
    exact (hwithin.trans (Session.Silent.refl z).logged) log logs hshows
  · rw [hbodyRun] at hwithin
    exact (hwithin.trans (logged_conclude m app returned z)) log logs hshows

end Run

namespace Logging

variable {ω α : Type} {id : UInt64}

/-- **WHAT A PROGRAM ADDS TO THE LOGS**, by induction on its tree. -/
theorem logged_run (p : Logging ω α) (x : Session ω) :
    Ends p.run x fun y => Session.Logged id x y (p.returned x) := by
  induction p generalizing x with
  | step operation => exact Run.logged_operation operation x
  | quiet action h => exact (h x).logged
  | bind first next ihfirst ihnext => exact Run.logged_bind (ihfirst x) ihnext
  | attempt body ih =>
      rw [Ends, run, Run.run_attempt]
      exact ih x
  | ensure items active body ih =>
      intro log logs hshows
      rw [run, Run.run_withEnsuredScope, if_pos hshows.hasGroup]
      exact ih false x log logs hshows
  | call call body ih =>
      intro log logs hshows
      have hcalled : Ends ((body call.args).run >>= fun value =>
          liftM (Run.encodeReturn call.method value).plain : Run _ _) x fun y =>
            Session.Logged id x y ((body call.args).returned x) :=
        ends_bind (ih call.args x) (fun _ h => h) fun _ _ h => h
      rw [run, Run.run_callMethod, if_pos hshows.hasGroup]
      exact hcalled log logs hshows
  | method m body ih => exact Run.logged_runActive ih x

/-- Behind a scope, the finished group and the ledger have what the program has added. -/
theorem records_of_scope (p : Logging ω α) {x : Session ω} {items : List GroupItem}
    {active : Option Nat} {tl : Timeline} {c : AppCall} {record : Application}
    (hledger : x.ledger.Registered) (hopen : x.timeline.openGroup items active = .ok tl)
    (hcall : (x.withTimeline tl).Calls c) (hrecord : x.ledger.application c.app = .ok record) :
    let values := p.returned (x.withTimeline tl)
    let y := ((Run.withScope items active p.run).run x).2
    ∃ entries g c' record', y.timeline.lastGroup = .ok g ∧ g.activeCall = .ok c' ∧
      c'.app = c.app ∧ y.ledger.application c.app = .ok record' ∧
      record'.logs = record.logs ++ (entries ++ values.map EncodedValue.log) ∧
      c'.log = c.log.grown entries values := by
  intro values y
  have hshows : (x.withTimeline tl).Shows c.app c.log record.logs := by
    refine ⟨⟨c, hcall, rfl, rfl⟩, hledger.appIds c.app ?_, ?_⟩
    · exact Table.contains_of_get? (Ledger.application_eq_ok_iff.mp hrecord)
    · exact Ledger.log?_eq_some_iff.mpr ⟨record, hrecord, rfl⟩
  obtain ⟨entries, -, hafter⟩ := p.logged_run (x.withTimeline tl) c.log record.logs hshows
  obtain ⟨c', ⟨g, hg, hc'⟩, happ, hlog⟩ := hafter.call
  obtain ⟨record', hrecord', hlogs⟩ := Ledger.log?_eq_some_iff.mp hafter.application
  have hy : y = (p.run.run (x.withTimeline tl)).2.finished := by
    show ((Run.withScope items active p.run).run x).2 = _
    rw [Run.run_withScope, hopen]
  refine ⟨entries, g, c', record', ?_, hc', happ, ?_, ?_, hlog⟩
  · rw [hy]
    exact Timeline.lastGroup_finished hg
  · rw [hy]
    exact hrecord'
  · rw [hlogs, List.append_assoc]

/-- **THE TWO LOG RECORDS.**  Behind the scope of a call to an application that there is, the
    application has logged some entries and then every value that was returned, and the call has
    logged the same entries and the last of these values.  So what a call without a log shows in
    the end is what was added to the application's log exactly when at most one value was
    returned.  An entry that is refused while there is the application has changed nothing; while
    there is none, every entry is refused, and the call has logged it nevertheless if it takes
    it. -/
theorem log_records (p : Logging ω α) {x : Session ω} {items : List GroupItem}
    {active : Option Nat} {tl : Timeline} {c : AppCall} {record : Application}
    (hledger : x.ledger.Registered) (hopen : x.timeline.openGroup items active = .ok tl)
    (hcall : (x.withTimeline tl).Calls c) (hrecord : x.ledger.application c.app = .ok record) :
    let values := p.returned (x.withTimeline tl)
    let y := ((Run.withScope items active p.run).run x).2
    (∃ entries g c' record', y.timeline.lastGroup = .ok g ∧ g.activeCall = .ok c' ∧
      c'.app = c.app ∧ y.ledger.application c.app = .ok record' ∧
      record'.logs = record.logs ++ (entries ++ values.map EncodedValue.log) ∧
      c'.log = c.log.grown entries values ∧
      (c.log = {} →
        (record'.logs = record.logs ++ c'.log.entries ↔ values.length ≤ 1))) ∧
    (∀ entry (z z' : Session ω) c record e, z.Calls c → z.ledger.application c.app = .ok record →
      (Run.log entry).run z = (.error e, z') → z' = z) ∧
    ∀ entry (z : Session ω) c e, z.Calls c → z.ledger.application c.app = .error e →
      ∃ e' z' c', (Run.log entry).run z = (.error e', z') ∧ z'.ledger = z.ledger ∧ z'.Calls c' ∧
        (∀ log, c.log.append entry = .ok log → c'.log = log) ∧
        ∀ e, c.log.append entry = .error e → c'.log = c.log := by
  intro values y
  refine ⟨?_, ?_, ?_⟩
  · obtain ⟨entries, g, c', record', hg, hc', happ, hrecord', hlogs, hlog⟩ :=
      p.records_of_scope hledger hopen hcall hrecord
    refine ⟨entries, g, c', record', hg, hc', happ, hrecord', hlogs, hlog, fun hempty => ?_⟩
    rw [hlogs, hlog, hempty, List.append_cancel_left_eq]
    exact CallLog.entries_grown_iff
  · intro entry z z' c record e hc hrecord hrun
    exact Run.eq_of_log_eq_error hc hrecord hrun
  · intro entry z c e hc hrecord
    exact Run.log_of_unknown entry hc hrecord

/-- A method that returns a byte. -/
def byteMethod : Method := { name := "f", args := [], returns := some (.uint 8) }

/-- The call of `byteMethod` by which `returnsTwice` runs. -/
def byteCall : List GroupItem :=
  [.single (.ofCall .zero { app := 1001, args := [byteMethod.selector] })]

/-- A program that runs `byteMethod` twice in one call. -/
def returnsTwice : Logging Unit (Option EncodedValue) :=
  .bind (.method byteMethod fun _ => .quiet (return some (.uint 1)) (Run.quiet_read fun _ => rfl))
    fun _ => .method byteMethod fun _ => .quiet (return some (.uint 2))
      (Run.quiet_read fun _ => rfl)

/-- The ledger logs a call that returns two values otherwise than the call itself. -/
theorem log_records_returnsTwice :
    let y := ((Run.withScope byteCall none returnsTwice.run).run Run.firstSession).2
    ∃ g c record, y.timeline.lastGroup = .ok g ∧ g.activeCall = .ok c ∧
      y.ledger.application 1001 = .ok record ∧ record.logs ≠ c.log.entries := by
  have hconsistent := Ledger.consistent_after (Ledger.consistent_new {})
    (.createApplication Sandbox.firstSender {})
  rw [Ledger.Operation.after_createApplication] at hconsistent
  have hregistered : Run.firstSession.ledger.Registered := hconsistent.toRegistered
  obtain ⟨tl, hopen, c, hcall, happ, hempty⟩ : ∃ tl,
      Run.firstSession.timeline.openGroup byteCall none = .ok tl ∧ ∃ c,
        (Run.firstSession.withTimeline tl).Calls c ∧ c.app = 1001 ∧ c.log = {} :=
    ⟨_, rfl, _, ⟨_, rfl, rfl⟩, rfl, rfl⟩
  obtain ⟨record, hrecord, hlogs⟩ : ∃ record,
      Run.firstSession.ledger.application c.app = .ok record ∧ record.logs = [] := by
    rw [happ]
    exact ⟨_, rfl, rfl⟩
  obtain ⟨⟨entries, g, c', record', hg, hc', -, hrecord', -, -, hagree⟩, -⟩ :=
    returnsTwice.log_records hregistered hopen hcall hrecord
  rw [happ] at hrecord'
  refine ⟨g, c', record', hg, hc', hrecord', fun hsame => ?_⟩
  have htwice := (hagree hempty).mp (by rw [hlogs, List.nil_append, hsame])
  cases hopen
  exact absurd htwice (by decide +kernel)

/-- Two values that are returned in one call are in the log of the application, and the last one
    only in that of the call. -/
theorem log_records_differ :
    let y := ((Run.withScope byteCall none returnsTwice.run).run Run.firstSession).2
    y.ledger.log? 1001 = some [[21, 31, 124, 117, 1], [21, 31, 124, 117, 2]] ∧
      (y.timeline.lastGroup >>= Group.activeCall).toOption.map (fun c => c.log.entries) =
        some [[21, 31, 124, 117, 2]] := by
  decide +kernel

end Logging

end AvmSandbox
