import AvmSandbox.Proofs.Ledger.Records
import AvmSandbox.Proofs.Sandbox.Session
import Mathlib.Data.List.Basic

/-! # Creation — which applications are marked as being created

    A creating call marks its application before it opens its group.  The mark
    is taken away where the method ends, by the method when it succeeds and by
    the call when it fails.  Between the two lies the opening of the group, and
    when that fails the call ends at once and the mark stays.

    * `Ledger.creates` and `Ledger.NoNewMark`: the marks of a ledger;
    * `noNewMark_runActive`, `creates_of_yields_runActive`: a method marks nothing
      and takes the mark of its application away;
    * `Session.Strands`: the calls that fail between mark and method;
    * `creates_callMethod_iff`: the marks behind a call. -/

namespace AvmSandbox

open AvmSandbox.Action

/-! ## Marks -/

namespace Ledger

/-- Whether an application is marked as being created. -/
def creates (l : Ledger) (id : UInt64) : Bool :=
  ((l.applications.get? id).map Application.isCreating).getD false

/-- Whether every mark of a ledger was there before. -/
def NoNewMark (before after : Ledger) : Prop :=
  ∀ id, after.creates id = true → before.creates id = true

variable {l l' : Ledger} {id : UInt64}

theorem NoNewMark.refl (l : Ledger) : l.NoNewMark l := fun _ h => h

theorem NoNewMark.trans {l'' : Ledger} (h : l.NoNewMark l') (h' : l'.NoNewMark l'') :
    l.NoNewMark l'' := fun id hid => h id (h' id hid)

theorem creates_of_setCreating {value : Bool} (h : l.setCreating id value = .ok l')
    (other : UInt64) : l'.creates other = if other = id then value else l.creates other := by
  obtain ⟨app, -, hget⟩ := get?_of_modifyApplication h
  rw [creates, hget]
  split <;> rfl

/-- An application whose mark cannot be changed has none. -/
theorem creates_of_setCreating_eq_error {value : Bool} {e : Fault}
    (h : l.setCreating id value = .error e) : l.creates id = false := by
  rw [setCreating, modifyApplication, application] at h
  rw [creates]
  cases happ : l.applications.get? id with
  | none => rfl
  | some app =>
      rw [happ] at h
      cases h

theorem noNewMark_of_appendLog {entry : Bytes} (h : l.appendLog id entry = .ok l') :
    l.NoNewMark l' := by
  obtain ⟨app, happ, hget⟩ := get?_of_modifyApplication h
  intro other hother
  rw [creates, hget] at hother
  rw [creates]
  split at hother
  · obtain rfl : other = id := ‹_›
    rw [happ]
    exact hother
  · exact hother

theorem noNewMark_of_setCreating (h : l.setCreating id false = .ok l') : l.NoNewMark l' := by
  intro other hother
  rw [creates_of_setCreating h] at hother
  split at hother
  · cases hother
  · exact hother

/-- A mark that is taken away again is no new one. -/
theorem noNewMark_of_unmarked {l'' : Ledger} (hset : l.setCreating id true = .ok l')
    (h : l'.NoNewMark l'') (hid : l''.creates id = false) : l.NoNewMark l'' := by
  intro other hother
  have hmarked := h other hother
  rw [creates_of_setCreating hset] at hmarked
  split at hmarked
  · obtain rfl : other = id := ‹_›
    rw [hid] at hother
    cases hother
  · exact hmarked

end Ledger

/-- Whether a body marks no application as being created, however it ends. -/
def MethodBody.MarksNothing {ω : Type} (body : MethodBody ω) : Prop :=
  ∀ args x, Ends (body args) x fun y => x.ledger.NoNewMark y.ledger

/-! ## Methods -/

namespace Run

variable {ω : Type} {m : Method} {body : MethodBody ω} {x y : Session ω}

theorem noNewMark_recordReturn (app : UInt64) (e : EncodedValue) (x : Session ω) :
    Ends (recordReturn app e) x fun y => x.ledger.NoNewMark y.ledger := by
  refine ends_bind (Q := fun y => y.ledger = x.ledger) ?_ (fun y hy => ?_) fun _ y hy => ?_
  · exact ends_onActiveTransaction rfl fun g t _ _ => rfl
  · rw [hy]
    exact .refl _
  · rw [← hy]
    exact ends_onLedger (.refl _) fun l hl => Ledger.noNewMark_of_appendLog hl

theorem noNewMark_conclude (m : Method) (app : UInt64) (returned : Option Value) (x : Session ω) :
    Ends (conclude m app returned) x fun y => x.ledger.NoNewMark y.ledger := by
  -- the mark is taken away behind the record of the value, if there is one
  have hunmark : ∀ (encoded : Option EncodedValue) (y : Session ω),
      Ends (do onLedger fun l => l.setCreating app false; return encoded : Run ω _) y
        fun z => y.ledger.NoNewMark z.ledger := fun encoded y =>
    ends_bind (ends_onLedger (.refl _) fun l hl => Ledger.noNewMark_of_setCreating hl)
      (fun _ h => h) fun _ _ h => h
  refine ends_bind (Q := fun y => y.ledger = x.ledger) ?_ (fun y hy => ?_) fun encoded y hy => ?_
  · exact ends_onActiveTransaction rfl fun g t _ _ => rfl
  · rw [hy]
    exact .refl _
  · rw [← hy]
    cases encoded with
    | none => exact hunmark none y
    | some e =>
        exact ends_bind_trans (R := fun x y : Session ω => x.ledger.NoNewMark y.ledger)
          Ledger.NoNewMark.trans (noNewMark_recordReturn app e y) fun _ => hunmark (some e)

/-- A method that succeeds has taken the mark of its application away. -/
theorem creates_of_yields_conclude {app : UInt64} {returned : Option Value}
    {encoded : Option EncodedValue} (h : Yields (conclude m app returned) x encoded y) :
    y.ledger.creates app = false := by
  have hunmark : ∀ {encoded encoded' : Option EncodedValue} {x : Session ω},
      Yields (do onLedger fun l => l.setCreating app false; return encoded : Run ω _) x encoded' y →
        y.ledger.creates app = false := by
    intro encoded encoded' x h
    obtain ⟨_, z, hset, hpure⟩ := yields_bind.mp h
    obtain ⟨-, rfl⟩ := yields_pure.mp hpure
    obtain ⟨l, hl, rfl⟩ := yields_onLedger_iff.mp hset
    rw [Session.ledger_withLedger, Ledger.creates_of_setCreating hl, if_pos rfl]
  obtain ⟨encoded', z, -, h⟩ := yields_bind.mp h
  cases encoded' with
  | none => exact hunmark h
  | some e =>
      obtain ⟨_, w, -, h⟩ := yields_bind.mp h
      exact hunmark h

theorem noNewMark_runActive (hbody : body.MarksNothing) (m : Method) (x : Session ω) :
    Ends (runActive m body) x fun y => x.ledger.NoNewMark y.ledger := by
  rw [Ends, run_runActive]
  rcases ((acceptCall m).run x).1 with e | ⟨app, args⟩
  · exact .refl _
  · exact ends_bind_trans (R := fun x y : Session ω => x.ledger.NoNewMark y.ledger)
      Ledger.NoNewMark.trans (hbody args x) (noNewMark_conclude m app)

/-- The application of an accepted call is the one that the active call calls. -/
theorem activeApp_of_yields_acceptCall {app : UInt64} {args : List Value}
    (h : Yields (acceptCall m) x (app, args) y) :
    ∃ g, x.timeline.current = some g ∧ g.activeApp = .ok app := by
  obtain ⟨g, z, hgroup, h⟩ := yields_bind.mp h
  rw [Yields, run_group, Prod.mk.injEq] at hgroup
  obtain ⟨app', happ, h⟩ := yields_lift_bind.mp h
  obtain ⟨_, _, -, h⟩ := yields_bind.mp h
  obtain ⟨_, -, h⟩ := yields_lift_bind.mp h
  obtain ⟨_, -, h⟩ := yields_lift_bind.mp h
  obtain ⟨_, -, h⟩ := yields_lift_bind.mp h
  obtain ⟨heq, -⟩ := yields_pure.mp h
  cases heq
  exact ⟨g, Timeline.group_eq_ok_iff.mp hgroup.1, happ⟩

/-- A method that succeeds has been concluded for the application of the active call. -/
theorem conclude_of_yields_runActive {g : Group} {app : UInt64} {encoded : Option EncodedValue}
    (hg : x.timeline.current = some g) (happ : g.activeApp = .ok app)
    (h : Yields (runActive m body) x encoded y) :
    ∃ returned z, Yields (conclude m app returned) z encoded y := by
  obtain ⟨⟨app', args⟩, z, haccept, h⟩ := yields_bind.mp h
  obtain ⟨returned, w, -, hconclude⟩ := yields_bind.mp h
  obtain ⟨g', hg', happ'⟩ := activeApp_of_yields_acceptCall haccept
  obtain rfl : g = g' := Option.some.inj (hg.symm.trans hg')
  obtain rfl : app = app' := Except.ok.inj (happ.symm.trans happ')
  exact ⟨returned, w, hconclude⟩

theorem creates_of_yields_runActive {g : Group} {app : UInt64} {encoded : Option EncodedValue}
    (hg : x.timeline.current = some g) (happ : g.activeApp = .ok app)
    (h : Yields (runActive m body) x encoded y) : y.ledger.creates app = false := by
  obtain ⟨returned, z, hconclude⟩ := conclude_of_yields_runActive hg happ h
  exact creates_of_yields_conclude hconclude

end Run

/-! ## Calls -/

/-- Encoding arguments into a call keeps what the call is. -/
theorem Method.identity_encodeArgs (m : Method) (args : List Value) (t : Transaction) :
    Ends (m.encodeArgs args) t fun t' => t'.identity = t.identity := by
  refine ends_unless rfl fun _ => ?_
  refine ends_bind (Transaction.identity_embed _ t) (fun _ h => h) fun entries t' ht' => ?_
  refine ends_mono (Transaction.identity_modifyCall (fun c c' hc => ?_) t') fun _ h => h.trans ht'
  cases hc
  rfl

theorem DeferredCall.transactions_of_ofTransactions {ts : List Transaction} {d : DeferredCall}
    (h : ofTransactions ts = .ok d) : d.transactions = ts := by
  rw [ofTransactions] at h
  cases hlast : ts.getLast? with
  | none =>
      rw [hlast] at h
      cases h
  | some last =>
      rw [hlast] at h
      dsimp only at h
      split at h
      · cases h
        exact List.dropLast_append_getLast? last hlast
      · cases h

namespace Run

variable {ω : Type} {call : MethodCall} {body : MethodBody ω} {x y : Session ω}

/-- A deferred call is built of the transaction arguments that were given and of the call. -/
theorem built_of_yields_deferCall {d : DeferredCall} (h : Yields (deferCall call) x d y) :
    ∃ t, DeferredCall.ofTransactions (call.transactions ++ [t]) = .ok d ∧
      t.app? = some call.app := by
  obtain ⟨s, z, -, h⟩ := yields_bind.mp h
  have hidentity := call.method.identity_encodeArgs call.args
    { s.appCall call.app call.onCompletion with
      header := { (s.appCall call.app call.onCompletion).header with
        sender := call.sender.getD (s.appCall call.app call.onCompletion).header.sender } }
  obtain ⟨_, -, h⟩ := yields_lift_bind.mp h
  obtain ⟨hd, -⟩ := yields_lift.mp h
  exact ⟨_, hd, congrArg Prod.snd hidentity⟩

/-- A call stands behind its transaction arguments. -/
theorem transactions_of_yields_deferCall {d : DeferredCall}
    (h : Yields (deferCall call) x d y) :
    ∃ t, d.transactions = call.transactions ++ [t] ∧ t.app? = some call.app := by
  obtain ⟨t, hbuilt, happ⟩ := built_of_yields_deferCall h
  exact ⟨t, DeferredCall.transactions_of_ofTransactions hbuilt, happ⟩

/-- A call opens a group when none is open and it has not too many transactions. -/
theorem exists_openGroup_iff {d : DeferredCall} {tl : Timeline}
    (h : Yields (deferCall call) x d y) :
    (∃ tl', tl.openGroup [.deferred d] none = .ok tl') ↔
      tl.current = none ∧ call.transactions.length < Limits.group := by
  obtain ⟨t, ht, -⟩ := transactions_of_yields_deferCall h
  have hflat := (GroupItem.flatMap_deferred d).trans ht
  simp only [Timeline.openGroup_eq_ok_iff, Group.new_eq_ok_iff hflat, Group.chooseActive]
  rw [List.length_append, List.length_singleton]
  constructor
  · rintro ⟨-, hnone, -, ⟨hle, -⟩, -⟩
    exact ⟨hnone, hle⟩
  · rintro ⟨hnone, hle⟩
    exact ⟨_, hnone, _, ⟨hle, _, rfl, rfl⟩, rfl⟩

/-- The active call of the group that a call has opened calls its application. -/
theorem activeApp_of_openGroup {d : DeferredCall} {tl tl' : Timeline}
    (h : Yields (deferCall call) x d y) (hopen : tl.openGroup [.deferred d] none = .ok tl') :
    ∃ g, tl'.current = some g ∧ g.activeApp = .ok call.app := by
  obtain ⟨t, ht, happ⟩ := transactions_of_yields_deferCall h
  have hflat := (GroupItem.flatMap_deferred d).trans ht
  obtain ⟨-, g, hg, rfl⟩ := Timeline.openGroup_eq_ok_iff.mp hopen
  obtain ⟨-, position, hposition, rfl⟩ := (Group.new_eq_ok_iff hflat).mp hg
  cases hposition
  refine ⟨_, rfl, Group.activeApp_eq_ok_iff_getElem?.mpr ?_⟩
  rw [Timeline.map_app?_identify, Group.map_app?_number]
  simp [happ]

end Run

/-- Whether a call marks its application and then cannot open its group: a group without
    transactions is open, or the call has too many transaction arguments. -/
structure MethodCall.Strands {ω : Type} (call : MethodCall) (x : Session ω) : Prop where
  creates : call.create = true
  known : ∃ app, x.ledger.application call.app = .ok app
  formed : ∃ d, ((Run.deferCall call).run x).1 = .ok d
  idle : x.timeline.hasGroup = false
  refused : x.timeline.current.isSome = true ∨ Limits.group ≤ call.transactions.length

namespace Run

variable {ω : Type} {call : MethodCall} {body : MethodBody ω} {x y : Session ω}

theorem yields_deferCall {d : DeferredCall} (h : ((deferCall call).run x).1 = .ok d) :
    Yields (deferCall call) x d x :=
  Prod.ext h (deferCall_unchanged call x)

/-- **A STRANDED CALL LEAVES ITS MARK** and nothing else. -/
theorem run_callMethod_of_strands (h : call.Strands x) (body : MethodBody ω) :
    ∃ e l, x.ledger.setCreating call.app true = .ok l ∧
      (callMethod call body).run x = (.error e, x.withLedger l) := by
  obtain ⟨app, happ⟩ := h.known
  obtain ⟨d, hd⟩ := h.formed
  obtain ⟨l, hl⟩ : ∃ l, x.ledger.setCreating call.app true = .ok l :=
    ⟨_, bind_eq_ok_iff.mpr ⟨app, happ, rfl⟩⟩
  have hidle : ¬x.timeline.hasGroup = true := by simp [h.idle]
  rw [run_callMethod, if_neg hidle, run_startCall, hd]
  dsimp only
  rw [if_pos h.creates, hl]
  dsimp only
  rw [Session.timeline_withLedger]
  cases hopen : x.timeline.openGroup [.deferred d] none with
  | error e => exact ⟨e, l, rfl, rfl⟩
  | ok tl =>
      obtain ⟨hnone, hlt⟩ := (exists_openGroup_iff (yields_deferCall hd)).mp ⟨tl, hopen⟩
      rcases h.refused with hsome | hle
      · rw [hnone] at hsome
        cases hsome
      · exact absurd hlt (Nat.not_lt.mpr hle)

theorem noNewMark_endCall (call : MethodCall) (result : Result (Option EncodedValue))
    (x : Session ω) : Ends (endCall call result) x fun y => x.ledger.NoNewMark y.ledger := by
  rw [Ends, run_endCall]
  split
  · cases hl : x.ledger.setCreating call.app false with
    | error e => exact .refl _
    | ok l => exact Ledger.noNewMark_of_setCreating hl
  · exact .refl _

/-- The end of a creating call takes the mark of its application away. -/
theorem creates_endCall {result : Result (Option EncodedValue)} (hcreate : call.create = true)
    (h : ∀ encoded, result = .ok encoded → x.ledger.creates call.app = false) :
    Ends (endCall call result) x fun y => y.ledger.creates call.app = false := by
  rw [Ends, run_endCall, hcreate]
  cases result with
  | ok encoded => exact h encoded rfl
  | error e =>
      have hfailed : (true && !(Except.error e : Result (Option EncodedValue)).isOk) = true := rfl
      rw [if_pos hfailed]
      cases hl : x.ledger.setCreating call.app false with
      | error e => exact Ledger.creates_of_setCreating_eq_error hl
      | ok l =>
          dsimp only
          rw [Session.ledger_withLedger, Ledger.creates_of_setCreating hl, if_pos rfl]

/-- Once it has opened its group, a call marks nothing, and when it is a creating one the mark of
    its application is gone. -/
theorem creates_of_openGroup {d : DeferredCall} {tl : Timeline} (hbody : body.MarksNothing)
    (hdefer : Yields (deferCall call) x d x)
    (hopen : y.timeline.openGroup [.deferred d] none = .ok tl) :
    let z := (runActive call.method body).run (y.withTimeline tl)
    Ends (endCall call z.1) z.2.finished fun w =>
      y.ledger.NoNewMark w.ledger ∧ (call.create = true → w.ledger.creates call.app = false) := by
  intro z
  have hmarks : y.ledger.NoNewMark z.2.ledger :=
    noNewMark_runActive hbody call.method (y.withTimeline tl)
  have hgone : ∀ encoded, z.1 = .ok encoded → z.2.ledger.creates call.app = false := by
    intro encoded hencoded
    obtain ⟨g, hg, happ⟩ := activeApp_of_openGroup hdefer hopen
    exact creates_of_yields_runActive (x := y.withTimeline tl) hg happ (Prod.ext hencoded rfl)
  exact ⟨hmarks.trans (noNewMark_endCall call z.1 z.2.finished),
    fun hcreate => creates_endCall hcreate hgone⟩

/-- A call that marks its application and is refused a group is stranded. -/
theorem strands_of_openGroup_eq_error {d : DeferredCall} {e : Fault} {l : Ledger}
    (hcreate : call.create = true) (hidle : x.timeline.hasGroup = false)
    (hdefer : Yields (deferCall call) x d x) (hset : x.ledger.setCreating call.app true = .ok l)
    (hrefused : x.timeline.openGroup [.deferred d] none = .error e) : call.Strands x := by
  obtain ⟨app, happ, -⟩ := bind_eq_ok_iff.mp hset
  refine ⟨hcreate, ⟨app, happ⟩, ⟨d, congrArg Prod.fst hdefer⟩, hidle, ?_⟩
  by_contra hopens
  rw [not_or, Bool.not_eq_true, Option.isSome_eq_false_iff, Option.isNone_iff_eq_none,
    Nat.not_le] at hopens
  obtain ⟨tl, htl⟩ := (exists_openGroup_iff hdefer).mpr hopens
  rw [hrefused] at htl
  cases htl

/-- A call that is not stranded marks nothing. -/
theorem noNewMark_callMethod (hbody : body.MarksNothing) (h : ¬call.Strands x) :
    Ends (callMethod call body) x fun y => x.ledger.NoNewMark y.ledger := by
  rw [Ends, run_callMethod]
  split
  case isTrue => exact ends_bind (hbody call.args x) (fun _ h => h) fun _ _ h => h
  case isFalse hidle =>
    rw [run_startCall]
    rcases hd : ((deferCall call).run x).1 with e | d
    · exact .refl _
    have hdefer := yields_deferCall hd
    dsimp only
    by_cases hcreate : call.create = true
    · rw [if_pos hcreate]
      cases hset : x.ledger.setCreating call.app true with
      | error e => exact .refl _
      | ok l =>
          dsimp only
          cases hopen : (x.withLedger l).timeline.openGroup [.deferred d] none with
          | error e =>
              rw [Bool.not_eq_true] at hidle
              exact absurd (strands_of_openGroup_eq_error hcreate hidle hdefer hset hopen) h
          | ok tl =>
              obtain ⟨hmarks, hgone⟩ := creates_of_openGroup hbody hdefer hopen
              exact Ledger.noNewMark_of_unmarked hset hmarks (hgone hcreate)
    · rw [if_neg hcreate]
      dsimp only
      cases hopen : x.timeline.openGroup [.deferred d] none with
      | error e => exact .refl _
      | ok tl => exact (creates_of_openGroup hbody hdefer hopen).1

/-- **THE MARKS BEHIND A CALL.**  When no application was marked, the application of a stranded
    call is marked afterwards, and nothing else ever is. -/
theorem creates_callMethod_iff (hbody : body.MarksNothing)
    (hnone : ∀ id, x.ledger.creates id = false) (id : UInt64) :
    ((callMethod call body).run x).2.ledger.creates id = true ↔
      id = call.app ∧ call.Strands x := by
  by_cases hstrands : call.Strands x
  · obtain ⟨e, l, hset, hrun⟩ := run_callMethod_of_strands hstrands body
    rw [hrun, Session.ledger_withLedger, Ledger.creates_of_setCreating hset, hnone]
    simp [hstrands]
  · have hmarks := noNewMark_callMethod hbody hstrands id
    rw [hnone] at hmarks
    simp only [hstrands, and_false, iff_false]
    exact fun h => Bool.false_ne_true (hmarks h)

/-- A new session in which one application was created. -/
def firstSession : Session Unit := ((createApplication {}).run ⟨.new {}, ()⟩).2

theorem creates_firstSession (id : UInt64) : firstSession.ledger.creates id = false := by
  have hget : firstSession.ledger.applications.get? id =
      if id = 1001 then some (Application.new 1001 Sandbox.firstSender {}) else none :=
    Table.get?_insert {} 1001 (Application.new 1001 Sandbox.firstSender {}) id
  rw [Ledger.creates, hget]
  split <;> rfl

/-- The creating call of the only application of `firstSession`. -/
def firstCall (transactions : List Transaction) : MethodCall where
  app := 1001
  method := { name := "create", args := [], returns := none, creation := .require }
  create := true
  transactions

theorem marksNothing_pure : MethodBody.MarksNothing fun _ => (pure none : Run Unit _) :=
  fun _ x => .refl x.ledger

/-- With sixteen transaction arguments the creating call is stranded. -/
theorem strands_firstCall :
    (firstCall (List.replicate 16 ⟨{}, .payment {}⟩)).Strands firstSession where
  creates := rfl
  known := ⟨_, rfl⟩
  formed := ⟨_, rfl⟩
  idle := rfl
  refused := .inr (Nat.le_refl 16)

/-- The mark is gone behind a creating call that stands alone, and stays behind one with sixteen
    transaction arguments. -/
theorem creates_callMethod_firstCall :
    ((callMethod (firstCall []) fun _ => pure none).run firstSession).2.ledger.creates 1001
        = false ∧
      ((callMethod (firstCall (List.replicate 16 ⟨{}, .payment {}⟩)) fun _ => pure none).run
        firstSession).2.ledger.creates 1001 = true := by
  constructor
  · refine Bool.eq_false_iff.mpr fun hmarked => ?_
    obtain ⟨-, hstrands⟩ :=
      (creates_callMethod_iff marksNothing_pure creates_firstSession 1001).mp hmarked
    rcases hstrands.refused with hopen | hlarge
    · cases hopen
    · exact absurd hlarge (by decide)
  · exact (creates_callMethod_iff marksNothing_pure creates_firstSession 1001).mpr
      ⟨rfl, strands_firstCall⟩

/-- A call may leave a mark behind. -/
theorem callMethod_leaves_mark :
    ¬∀ (call : MethodCall) (body : MethodBody Unit) (x : Session Unit), body.MarksNothing →
      (∀ id, x.ledger.creates id = false) →
        ∀ id, ((callMethod call body).run x).2.ledger.creates id = false := by
  intro h
  obtain ⟨e, l, hset, hrun⟩ :=
    run_callMethod_of_strands strands_firstCall fun _ => pure none
  have hnot := h (firstCall (List.replicate 16 ⟨{}, .payment {}⟩)) (fun _ => pure none)
    firstSession marksNothing_pure creates_firstSession 1001
  rw [hrun, Session.ledger_withLedger, Ledger.creates_of_setCreating hset] at hnot
  exact Bool.false_ne_true hnot.symm

end Run

end AvmSandbox
