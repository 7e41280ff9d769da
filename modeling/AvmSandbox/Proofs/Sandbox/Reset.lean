import AvmSandbox.Proofs.Sandbox.Scopes

/-! # Reset — what a sandbox is afterwards

    Ledger and timeline of a sandbox are made anew from its settings, which no
    step of a test changes.  The default sender is neither of the two: it stays
    what the test has made it.

    * `Run.Offered`: the steps of a test, and all that is composed of them;
    * `Sandbox.Follows`: what every one of them leaves, by induction on how a test
      was composed;
    * `Sandbox.Indistinct`: sandboxes that no test tells apart;
    * `Run.reset_restores`: the sandbox behind a test and a reset. -/

namespace AvmSandbox

open AvmSandbox.Action

/-! ## Steps of a test -/

namespace Run

variable {ω : Type}

/-- Resets the sandbox. -/
def reset : Run ω Unit := do setSandbox (← sandbox).reset

/-- Names the default sender. -/
def setDefaultSender (sender : Address) : Run ω Unit := do
  setSandbox { (← sandbox) with defaultSender := sender }

/-- What a test may be: any sequence and nesting of the steps that a sandbox offers, when those
    that name a default sender name one of `senders`. -/
inductive Offered (senders : Address → Prop) : {α : Type} → Run ω α → Prop where
  | inspect {α : Type} (look : Session ω → Result α) : Offered senders (do look (← get))
  | note (change : ω → ω) : Offered senders (modify fun x => { x with record := change x.record })
  | reset : Offered senders reset
  | setDefaultSender (sender : Address) (h : senders sender) :
      Offered senders (setDefaultSender sender)
  | editLedger {α : Type} (edit : Ledger → Result (α × Ledger)) : Offered senders (fromLedger edit)
  | createApplicationOf (creator : Address) (program : Program) :
      Offered senders (createApplicationOf creator program)
  | createApplication (program : Program) : Offered senders (createApplication program)
  | createAsset (params : AssetParams) : Offered senders (createAsset params)
  | openGroup (items : List GroupItem) (active : Option Nat) :
      Offered senders (onTimeline fun tl => tl.openGroup items active)
  | finish : Offered senders (onTimeline Timeline.finish)
  | editGroup (edit : Group → Result Group) : Offered senders (onGroup edit)
  | editActive {α : Type} (action : Amending α) : Offered senders (onActiveTransaction action)
  | editObservers (edit : List Observer → List Observer) :
      Offered senders (onTimeline fun tl => .ok { tl with observers := edit tl.observers })
  | operation {α : Type} (o : Operation α) : Offered senders o.run
  | bind {α β : Type} {first : Run ω α} {next : α → Run ω β} (hfirst : Offered senders first)
      (hnext : ∀ a, Offered senders (next a)) : Offered senders (first >>= next)
  | attempt {α : Type} {body : Run ω α} (h : Offered senders body) : Offered senders (attempt body)
  | withScope {α : Type} (items : List GroupItem) (active : Option Nat) {body : Run ω α}
      (h : Offered senders body) : Offered senders (withScope items active body)
  | withEnsuredScope {α : Type} (items : List GroupItem) (active : Option Nat)
      {body : Bool → Run ω α} (h : ∀ own, Offered senders (body own)) :
      Offered senders (withEnsuredScope items active body)
  | callMethod (call : MethodCall) {body : MethodBody ω} (h : ∀ args, Offered senders (body args)) :
      Offered senders (callMethod call body)
  | runActive (m : Method) {body : MethodBody ω} (h : ∀ args, Offered senders (body args)) :
      Offered senders (runActive m body)

end Run

/-! ## What a test leaves -/

/-- What a part of a test leaves of a sandbox: its settings, the layout of references, and the
    default sender unless one of `senders` was named. -/
structure Sandbox.Follows (senders : Address → Prop) (before after : Sandbox) : Prop where
  settings : after.settings = before.settings
  encoding : after.timeline.encoding = before.timeline.encoding
  sender : after.defaultSender = before.defaultSender ∨ senders after.defaultSender

namespace Sandbox.Follows

variable {senders : Address → Prop} {s s' s'' : Sandbox}

theorem refl (s : Sandbox) : s.Follows senders s := ⟨rfl, rfl, .inl rfl⟩

/-- What one part of a test leaves and the next one leaves, both leave. -/
theorem trans (h : s.Follows senders s') (h' : s'.Follows senders s'') :
    s.Follows senders s'' where
  settings := h'.settings.trans h.settings
  encoding := h'.encoding.trans h.encoding
  sender := by
    rcases h'.sender with hsame | hnamed
    · rw [hsame]
      exact h.sender
    · exact .inr hnamed

/-- A sandbox follows on one with another ledger and timeline, of the same layout. -/
theorem of_same {l : Ledger} {tl : Timeline} (h : tl.encoding = s.timeline.encoding) :
    s.Follows senders { s with ledger := l, timeline := tl } := ⟨rfl, h, .inl rfl⟩

end Sandbox.Follows

namespace Timeline

variable {tl tl' : Timeline}

/-- Opening a group leaves the layout of references. -/
theorem encoding_of_openGroup {items : List GroupItem} {active : Option Nat}
    (h : tl.openGroup items active = .ok tl') : tl'.encoding = tl.encoding := by
  rw [openGroup] at h
  split at h
  · cases h
  · obtain ⟨g, -, h⟩ := bind_eq_ok_iff.mp h
    obtain rfl := pure_eq_ok_iff.mp h
    rfl

theorem encoding_of_finish (h : tl.finish = .ok tl') : tl'.encoding = tl.encoding := by
  rw [finish] at h
  split at h
  · cases h
    rfl
  · cases h

/-- A change of the open group leaves the layout of references. -/
theorem encoding_of_modifyGroup {edit : Group → Result Group}
    (h : tl.modifyGroup edit = .ok tl') : tl'.encoding = tl.encoding := by
  obtain ⟨g, -, h⟩ := bind_eq_ok_iff.mp h
  obtain ⟨g', -, h⟩ := bind_eq_ok_iff.mp h
  obtain rfl := pure_eq_ok_iff.mp h
  rfl

end Timeline

namespace Chain

/-- A submission leaves the layout of references, successful or failing. -/
theorem encoding_submitInner (c : Chain) :
    Ends submitInner c fun c' => c'.timeline.encoding = c.timeline.encoding := by
  refine ends_bind (ends_mono (recorded_stageInner c) fun c' h => ?_) (fun _ h => h)
    fun s c' h => ?_
  · exact congrArg (fun c => c.timeline.encoding) h
  · rw [commitInner, ends_modify_bind, ends_get_bind]
    refine ends_lift_bind h fun g _ => ends_lift_bind h fun g' _ => ?_
    rw [ends_modify_bind]
    exact h

/-- A single submission composes and submits, and neither touches the layout of references. -/
theorem encoding_submitSingle (p : InnerParams) (c : Chain) :
    Ends (submitSingle p) c fun c' => c'.timeline.encoding = c.timeline.encoding := by
  rw [submitSingle, ends_get_bind]
  refine ends_lift_bind rfl fun tl htl => ends_lift_bind rfl fun tl' htl' => ?_
  have hsame : tl'.encoding = c.timeline.encoding :=
    (Timeline.encoding_of_modifyGroup htl').trans (Timeline.encoding_of_modifyGroup htl)
  rw [ends_modify_bind]
  refine ends_bind (ends_mono (encoding_submitInner _) fun c' h => h.trans hsame) (fun _ h => h)
    fun ts c' h => ?_
  split <;> exact h

end Chain

namespace Run

variable {ω α β : Type} {senders : Address → Prop}

/-- Whether every sandbox follows on itself through an action, however it ends. -/
def Retains (senders : Address → Prop) (action : Run ω α) : Prop :=
  ∀ x, Ends action x fun y => x.sandbox.Follows senders y.sandbox

/-- A sequence leaves what its steps leave. -/
theorem retains_bind {first : Run ω α} {next : α → Run ω β} (hfirst : Retains senders first)
    (hnext : ∀ a, Retains senders (next a)) : Retains senders (first >>= next) := fun x =>
  ends_bind_trans (R := fun x y : Session ω => x.sandbox.Follows senders y.sandbox)
    Sandbox.Follows.trans (hfirst x) hnext

/-- An action that leaves the session alone leaves what has to be left. -/
theorem retains_read {action : Run ω α} (h : ∀ x, (action.run x).2 = x) :
    Retains senders action := by
  intro x
  rw [Ends, h]
  exact .refl _

/-- Settings are kept beside the ledger, so no change of the ledger is in their way. -/
theorem retains_onLedger (f : Ledger → Result Ledger) : Retains senders (onLedger f : Run ω Unit) :=
  fun _ => ends_onLedger (.refl _) fun _ _ => .of_same rfl

theorem retains_fromLedger (edit : Ledger → Result (α × Ledger)) :
    Retains senders (fromLedger edit : Run ω α) := by
  refine retains_bind (retains_read fun _ => rfl) fun l => ?_
  refine retains_bind (retains_read fun _ => rfl) fun edited => ?_
  exact retains_bind (fun _ => .of_same rfl) fun _ => retains_read fun _ => rfl

/-- Creating an application sets the ledger once, whether or not the creation stops. -/
theorem retains_createApplicationOf (creator : Address) (program : Program) :
    Retains senders (createApplicationOf creator program : Run ω UInt64) := by
  refine retains_bind (retains_read fun _ => rfl) fun l => ?_
  refine retains_bind (fun _ => .of_same rfl) fun _ => ?_
  exact retains_bind (retains_read fun _ => rfl) fun created => retains_read fun _ => rfl

/-- A change of the timeline leaves what has to be left when it leaves the layout of references. -/
theorem retains_onTimeline {f : Timeline → Result Timeline}
    (hf : ∀ tl tl', f tl = .ok tl' → tl'.encoding = tl.encoding) :
    Retains senders (onTimeline f : Run ω Unit) :=
  fun x => ends_onTimeline (.refl _) fun tl htl => .of_same (hf x.timeline tl htl)

theorem retains_onGroup (edit : Group → Result Group) :
    Retains senders (onGroup edit : Run ω Unit) :=
  retains_onTimeline fun _ _ h => Timeline.encoding_of_modifyGroup h

/-- Whatever is done to the active transaction stays inside the open group. -/
theorem retains_onActiveTransaction (action : Amending α) :
    Retains senders (onActiveTransaction action : Run ω α) :=
  fun _ => ends_onActiveTransaction (.refl _) fun _ _ _ _ => .of_same rfl

/-- What is done on the chain touches ledger and timeline only. -/
theorem retains_onChain {action : ChainAction α}
    (h : ∀ c, Ends action c fun c' => c'.timeline.encoding = c.timeline.encoding) :
    Retains senders (onChain action : Run ω α) := by
  intro x
  rw [Ends, run_onChain]
  exact .of_same (h ⟨x.ledger, x.timeline⟩)

theorem retains_submitInner : Retains senders (submitInner : Run ω (List Transaction)) :=
  retains_onChain Chain.encoding_submitInner

theorem retains_submitSingle (p : InnerParams) :
    Retains senders (submitSingle p : Run ω Transaction) :=
  retains_onChain (Chain.encoding_submitSingle p)

/-- Nothing that a contract can do touches the settings. -/
theorem retains_operation (o : Operation α) : Retains senders (o.run : Run ω α) := by
  cases o with
  | log entry =>
      refine retains_bind (retains_read fun _ => rfl) fun g => ?_
      refine retains_bind (retains_read fun _ => rfl) fun app => ?_
      exact retains_bind (retains_onGroup _) fun _ => retains_onLedger _
  | loadScratch index slot =>
      exact retains_bind (retains_read fun _ => rfl) fun g => retains_read fun _ => rfl
  | storeScratch slot v => exact retains_onGroup fun g => g.storeScratch slot v
  | beginInner => exact retains_onGroup Group.beginInner
  | nextInner => exact retains_onGroup Group.nextInner
  | assignInner field => exact retains_onGroup fun g => g.assignInner field
  | submitInner => exact retains_submitInner
  | submitSingle p => exact retains_submitSingle p

/-- A scope leaves what its body leaves: opening and ending a group change neither settings nor
    layout. -/
theorem retains_withScope (items : List GroupItem) (active : Option Nat) {body : Run ω α}
    (h : Retains senders body) : Retains senders (withScope items active body) := by
  intro x
  rw [Ends, run_withScope]
  cases hopen : x.timeline.openGroup items active with
  | error e => exact .refl _
  | ok tl =>
      have hopened : x.sandbox.Follows senders (x.withTimeline tl).sandbox :=
        .of_same (Timeline.encoding_of_openGroup hopen)
      exact (hopened.trans (h _)).trans (.of_same rfl)

/-- A scope that may find a group open leaves what its body leaves, too. -/
theorem retains_withEnsuredScope (items : List GroupItem) (active : Option Nat)
    {body : Bool → Run ω α} (h : ∀ own, Retains senders (body own)) :
    Retains senders (withEnsuredScope items active body) := by
  intro x
  rw [Ends, run_withEnsuredScope]
  split
  · exact h false x
  · have hfinished : x.sandbox.Follows senders x.finished.sandbox := .of_same rfl
    exact hfinished.trans (retains_withScope items active (h true) x.finished)

/-- Recording what was returned is done on the active call and in the ledger. -/
theorem retains_conclude (m : Method) (app : UInt64) (returned : Option Value) :
    Retains senders (conclude m app returned : Run ω (Option EncodedValue)) := by
  refine retains_bind (retains_onActiveTransaction _) fun encoded => ?_
  have hunmark : Retains senders
      (do onLedger fun l => l.setCreating app false; return encoded : Run ω _) :=
    retains_bind (retains_onLedger _) fun _ => retains_read fun _ => rfl
  cases encoded with
  | none => exact hunmark
  | some e =>
      refine retains_bind ?_ fun _ => hunmark
      exact retains_bind (retains_onActiveTransaction _) fun _ => retains_onLedger _

/-- A method leaves what its body leaves. -/
theorem retains_runActive (m : Method) {body : MethodBody ω}
    (h : ∀ args, Retains senders (body args)) : Retains senders (runActive m body) := by
  refine retains_bind (retains_read (acceptCall_unchanged m)) fun accepted => ?_
  exact retains_bind (h accepted.2) fun returned => retains_conclude m accepted.1 returned

/-- A call marks the application and opens a scope around the method. -/
theorem retains_callMethod (call : MethodCall) {body : MethodBody ω}
    (h : ∀ args, Retains senders (body args)) : Retains senders (callMethod call body) := by
  have hstart : Retains senders (startCall call : Run ω DeferredCall) := by
    refine retains_bind (retains_read (deferCall_unchanged call)) fun deferred => ?_
    split
    · exact retains_bind (retains_onLedger _) fun _ => retains_read fun _ => rfl
    · exact retains_read fun _ => rfl
  have hend : ∀ result, Retains senders (endCall call result : Run ω (Option EncodedValue)) := by
    intro result
    rw [endCall]
    split
    · exact retains_bind (retains_onLedger _) fun _ => retains_read fun _ => rfl
    · exact retains_read fun _ => rfl
  intro x
  rw [Ends, run_callMethod]
  split
  · exact retains_bind (h call.args) (fun _ => retains_read fun _ => rfl) x
  · have hstarted := hstart x
    rw [Ends] at hstarted
    rcases hrun : (startCall call).run x with ⟨e | d, y⟩
    · rw [hrun] at hstarted
      exact hstarted
    · rw [hrun] at hstarted
      dsimp only
      have hscope := retains_withScope [.deferred d] none (retains_runActive call.method h) y
      rw [Ends, run_withScope] at hscope
      cases hopen : y.timeline.openGroup [.deferred d] none with
      | error e => exact hstarted
      | ok tl =>
          rw [hopen] at hscope
          exact (hstarted.trans hscope).trans (hend _ _)

/-- **A TEST LEAVES THE SETTINGS**, and the default sender unless it names one, by induction on how
    it was composed. -/
theorem Offered.retains {test : Run ω α} (h : Offered senders test) : Retains senders test := by
  induction h with
  | inspect look => exact retains_bind (retains_read fun _ => rfl) fun x => retains_read fun _ => rfl
  | note change => exact fun x => .refl _
  | reset => exact fun x => .of_same rfl
  | setDefaultSender sender h => exact fun x => ⟨rfl, rfl, .inr h⟩
  | editLedger edit => exact retains_fromLedger edit
  | createApplicationOf creator program => exact retains_createApplicationOf creator program
  | createApplication program =>
      exact retains_bind (retains_read fun _ => rfl) fun s => retains_createApplicationOf _ program
  | createAsset params =>
      exact retains_bind (retains_read fun _ => rfl) fun s => retains_fromLedger _
  | openGroup items active => exact retains_onTimeline fun _ _ h => Timeline.encoding_of_openGroup h
  | finish => exact retains_onTimeline fun _ _ h => Timeline.encoding_of_finish h
  | editGroup edit => exact retains_onGroup edit
  | editActive action => exact retains_onActiveTransaction action
  | editObservers edit =>
      refine retains_onTimeline fun tl tl' h => ?_
      cases h
      rfl
  | operation o => exact retains_operation o
  | bind _ _ ihfirst ihnext => exact retains_bind ihfirst ihnext
  | attempt _ ih =>
      intro x
      rw [Ends, run_attempt]
      exact ih x
  | withScope items active _ ih => exact retains_withScope items active ih
  | withEnsuredScope items active _ ih => exact retains_withEnsuredScope items active ih
  | callMethod call _ ih => exact retains_callMethod call ih
  | runActive m _ ih => exact retains_runActive m ih

end Run

/-! ## Two runs -/

namespace Sandbox

variable {settings : Settings} {senders : Address → Prop} {s : Sandbox}

/-- Whether no test tells two sandboxes apart by its result. -/
def Indistinct (ω : Type) (s s' : Sandbox) : Prop :=
  ∀ (α : Type) (test : Run ω α), Run.Offered (fun _ => True) test →
    ∀ record, (test.run ⟨s, record⟩).1 = (test.run ⟨s', record⟩).1

/-- Only the default sender of a sandbox outlives its reset. -/
theorem Follows.reset_eq (h : (new settings).Follows senders s) :
    s.reset = { new settings with defaultSender := s.defaultSender } := by
  have hsettings : s.settings = settings := h.settings
  have hencoding : s.timeline.encoding = settings.encoding := h.encoding
  rw [reset, hsettings, Timeline.reset, hencoding]
  rfl

/-- Sandboxes that no test tells apart have one default sender. -/
theorem Indistinct.sender_eq {ω : Type} {s' : Sandbox} (record : ω) (h : Indistinct ω s s') :
    s.defaultSender = s'.defaultSender := by
  have hlook := h Address _ (.inspect fun x => .ok x.sandbox.defaultSender) record
  exact Except.ok.inj hlook

end Sandbox

namespace Run

variable {ω α : Type} {senders : Address → Prop}

/-- **RESET RESTORES ALL BUT THE DEFAULT SENDER.**  Behind a test and a reset, a sandbox is the new
    one with the default sender that the test has left, which is the first one or one that the
    test has named.  So no further test tells the sandbox from a new one exactly when that is
    still the first one; and every further test ends as it does on a new sandbox on which the
    default sender was named before. -/
theorem reset_restores {test : Run ω α} (h : Offered senders test) (settings : Settings)
    (record : ω) :
    let s := (test.run ⟨.new settings, record⟩).2.sandbox
    (s.reset = { Sandbox.new settings with defaultSender := s.defaultSender } ∧
      (s.defaultSender = Sandbox.firstSender ∨ senders s.defaultSender)) ∧
    (Sandbox.Indistinct ω s.reset (.new settings) ↔ s.defaultSender = Sandbox.firstSender) ∧
    ∀ (β : Type) (further : Run ω β) record',
      further.run ⟨s.reset, record'⟩ =
        (do setDefaultSender s.defaultSender; further).run ⟨.new settings, record'⟩ := by
  intro s
  have hfollows : (Sandbox.new settings).Follows senders s := h.retains ⟨.new settings, record⟩
  have hreset := hfollows.reset_eq
  refine ⟨⟨hreset, hfollows.sender⟩, ⟨fun hsame => hsame.sender_eq record, ?_⟩, ?_⟩
  · intro hfirst β further _ record'
    rw [hreset, hfirst]
    rfl
  · intro β further record'
    rw [hreset]
    rfl

/-- A test that names a default sender and creates an application in its name. -/
def renamed : Run Unit UInt64 := do
  setDefaultSender ⟨⟨List.replicate 32 2, rfl⟩⟩
  createApplication {}

/-- The sender that was named still calls behind a reset. -/
theorem reset_restores_renamed :
    (renamed.run ⟨.new {}, ()⟩).2.sandbox.reset.defaultSender = ⟨⟨List.replicate 32 2, rfl⟩⟩ ∧
      (renamed.run ⟨.new {}, ()⟩).2.sandbox.reset.ledger = .new {} := by
  have hoffered : Offered (· = ⟨⟨List.replicate 32 2, rfl⟩⟩) renamed :=
    .bind (.setDefaultSender _ rfl) fun _ => .createApplication {}
  obtain ⟨⟨hreset, -⟩, -⟩ := reset_restores hoffered {} ()
  refine ⟨?_, ?_⟩
  · rw [hreset]
    rfl
  · rw [hreset]
    rfl

/-- A test can tell a sandbox that was reset from a new one. -/
theorem not_indistinct_renamed :
    ¬Sandbox.Indistinct Unit (renamed.run ⟨.new {}, ()⟩).2.sandbox.reset (.new {}) := by
  intro h
  have hsender : (renamed.run ⟨.new {}, ()⟩).2.sandbox.defaultSender = Sandbox.firstSender :=
    h.sender_eq ()
  have hbytes := congrArg (fun a => a.bytes.head?) hsender
  cases hbytes

end Run

end AvmSandbox
