import AvmSandbox.Method.Call
import AvmSandbox.Method.Description
import AvmSandbox.Proofs.Group
import Mathlib.Data.List.Basic

/-! # Admission — which calls a described method takes

    A description names the actions of a method phase by phase: those with which
    it may be called while its application is created, and those with which it
    may be called later.  A method keeps one list of actions for both phases, and
    beside it the phases in which it may run at all.  So a phase stays closed
    when its list is empty, but a phase that is open takes the actions of both.

    * `OnCompletion.mem_of_mapM_parse`: lists of actions and the names in them;
    * `mem_allowedActions`, `checkPhase_creationRule`: what becomes of the two
      lists;
    * `checkRouting_eq_ok_iff`: when a method takes a call;
    * `checkRouting_of_described`: from the text of a description to the call. -/

namespace AvmSandbox

/-! ## Names of actions -/

namespace OnCompletion

/-- Every action is read from its own name only. -/
theorem parse_eq_ok_iff {name : String} {action : OnCompletion} :
    parse name = .ok action ↔ action.name = name := by
  constructor
  · intro h
    rw [parse] at h
    cases hname : ofName? name with
    | none =>
        rw [hname] at h
        cases h
    | some found =>
        rw [hname] at h
        obtain rfl : found = action := Except.ok.inj h
        have hfound := List.find?_some hname
        rwa [decide_eq_true_eq] at hfound
  · rintro rfl
    exact parse_name action

/-- A list that was read holds the actions whose names were in it. -/
theorem mem_of_mapM_parse {names : List String} {actions : List OnCompletion}
    (h : names.mapM parse = .ok actions) (action : OnCompletion) :
    action ∈ actions ↔ action.name ∈ names := by
  induction names generalizing actions with
  | nil =>
      rw [List.mapM_nil, pure_eq_ok_iff] at h
      subst h
      simp
  | cons name names ih =>
      obtain ⟨first, rest, hfirst, hrest, rfl⟩ := mapM_cons_eq_ok_iff.mp h
      rw [parse_eq_ok_iff] at hfirst
      subst hfirst
      rw [List.mem_cons, List.mem_cons, ih hrest]
      refine or_congr_left ⟨congrArg name, fun hname => ?_⟩
      -- the names tell the actions apart, for each is read from its own
      exact Option.some.inj ((ofName?_name action).symm.trans (hname ▸ ofName?_name first))

theorem isEmpty_of_mapM_parse {names : List String} {actions : List OnCompletion}
    (h : names.mapM parse = .ok actions) : actions.isEmpty = names.isEmpty := by
  have hlength := length_of_mapM h
  cases names <;> cases actions <;> simp_all

end OnCompletion

/-! ## Both phases in one method -/

/-- The names that a description lists for a phase of the application. -/
def DescribedActions.during (actions : DescribedActions) (isCreating : Bool) : List String :=
  if isCreating then actions.create else actions.call

namespace Description

/-- The merged list holds the actions of both lists, and no others. -/
theorem mem_allowedActions {create call : List OnCompletion} {action : OnCompletion} :
    action ∈ allowedActions create call ↔ action ∈ create ∨ action ∈ call := by
  rw [allowedActions]
  induction create generalizing call with
  | nil => simp
  | cons first create ih =>
      rw [List.foldl_cons, ih, List.mem_cons]
      by_cases hfirst : call.contains first = true
      · rw [if_pos hfirst]
        have hmem : first ∈ call := List.contains_iff_mem.mp hfirst
        constructor
        · rintro (h | h)
          · exact .inl (.inr h)
          · exact .inr h
        · rintro ((rfl | h) | h)
          · exact .inr hmem
          · exact .inl h
          · exact .inr h
      · rw [if_neg hfirst, List.mem_append, List.mem_singleton, ← or_assoc, or_right_comm,
          or_comm (a := action ∈ create)]

/-- What a method takes over from the actions of its description. -/
theorem of_methodOf {described : DescribedMethod} {m : Method} {actions : DescribedActions}
    (h : methodOf described = .ok m) (hactions : described.actions = some actions) :
    ∃ create call, actions.create.mapM OnCompletion.parse = .ok create ∧
      actions.call.mapM OnCompletion.parse = .ok call ∧
      m.creation = creationRule create call ∧ m.allowed = allowedActions create call := by
  have hwith : ∀ {base : Method}, withActions base actions = .ok m →
      ∃ create call, actions.create.mapM OnCompletion.parse = .ok create ∧
        actions.call.mapM OnCompletion.parse = .ok call ∧
        m.creation = creationRule create call ∧ m.allowed = allowedActions create call := by
    intro base h
    obtain ⟨create, hcreate, h⟩ := bind_eq_ok_iff.mp h
    obtain ⟨call, hcall, h⟩ := bind_eq_ok_iff.mp h
    obtain rfl := pure_eq_ok_iff.mp h
    exact ⟨create, call, hcreate, hcall, rfl, rfl⟩
  rw [methodOf, hactions] at h
  obtain ⟨args, -, h⟩ := bind_eq_ok_iff.mp h
  dsimp only at h
  -- the return type is read or absent, and the actions come after it
  split at h
  · obtain ⟨returns, -, h⟩ := bind_eq_ok_iff.mp h
    exact hwith h
  · obtain ⟨returns, -, h⟩ := bind_eq_ok_iff.mp h
    exact hwith h

/-- Reading a text reads its tree, and then method after method. -/
theorem parse_eq_ok_iff {text : String} {c : Contract} :
    parse text = .ok c ↔
      ∃ tree d, Json.parse text = some tree ∧ readContract tree = some d ∧ d.name = c.name ∧
        d.methods.mapM methodOf = .ok c.methods := by
  rw [parse]
  cases htree : Json.parse text with
  | none => simp
  | some tree =>
      rw [Option.bind_some]
      cases hread : readContract tree with
      | none => simp [hread]
      | some d =>
          dsimp only
          rw [toContract, bind_eq_ok_iff]
          simp only [pure_eq_ok_iff, Option.some.injEq]
          obtain ⟨name, methods⟩ := c
          constructor
          · rintro ⟨ms, hms, hc⟩
            cases hc
            exact ⟨tree, d, rfl, hread, rfl, hms⟩
          · rintro ⟨_, _, rfl, hd, hname, hms⟩
            cases hread.symm.trans hd
            exact ⟨methods, hms, congrArg (Contract.mk · methods) hname⟩

end Description

/-! ## Calls -/

namespace Method

variable {m : Method} {l : Ledger} {g : Group} {id : UInt64} {app : Application} {c : AppCall}

/-- A phase is open when its list names an action; later calls are also let through, to be refused
    by their action, when both lists are empty. -/
theorem checkPhase_creationRule {create call : List OnCompletion}
    (h : m.creation = Description.creationRule create call) (isCreating : Bool) :
    m.checkPhase isCreating = .ok () ↔
      if isCreating then create.isEmpty = false
      else call.isEmpty = false ∨ create.isEmpty = true := by
  unfold checkPhase Description.creationRule at *
  rw [h]
  cases create.isEmpty <;> cases call.isEmpty <;> cases isCreating <;> simp

/-- A method takes a call in a phase that is open to it, with an action that it allows. -/
theorem checkRouting_eq_ok_iff (happ : l.application id = .ok app) (hc : g.activeCall = .ok c) :
    m.checkRouting l g id = .ok () ↔
      m.checkPhase app.isCreating = .ok () ∧ c.onCompletion ∈ m.allowed := by
  rw [checkRouting, happ, ok_bind]
  cases m.checkPhase app.isCreating with
  | error e => exact ⟨fun h => (by cases h), fun h => (by cases h.1)⟩
  | ok u =>
      rw [ok_bind, hc, ok_bind]
      cases u
      by_cases hallowed : c.onCompletion ∈ m.allowed
      · rw [if_pos hallowed]
        exact ⟨fun _ => ⟨rfl, hallowed⟩, fun _ => rfl⟩
      · rw [if_neg hallowed]
        exact ⟨fun h => (by cases h), fun h => absurd h.2 hallowed⟩

end Method

namespace Description

/-- A method that was made of described actions takes a call when the description names an action
    for its phase, and the action of the call for one of both phases. -/
theorem checkRouting_of_methodOf {described : DescribedMethod} {m : Method}
    {actions : DescribedActions} (h : methodOf described = .ok m)
    (hactions : described.actions = some actions) {l : Ledger} {g : Group} {id : UInt64}
    {app : Application} {c : AppCall} (happ : l.application id = .ok app)
    (hc : g.activeCall = .ok c) :
    m.checkRouting l g id = .ok () ↔
      actions.during app.isCreating ≠ [] ∧
        c.onCompletion.name ∈ actions.create ++ actions.call := by
  obtain ⟨create, call, hcreate, hcall, hrule, hallowed⟩ := of_methodOf h hactions
  rw [Method.checkRouting_eq_ok_iff happ hc, Method.checkPhase_creationRule hrule, hallowed,
    mem_allowedActions, OnCompletion.mem_of_mapM_parse hcreate,
    OnCompletion.mem_of_mapM_parse hcall, OnCompletion.isEmpty_of_mapM_parse hcreate,
    OnCompletion.isEmpty_of_mapM_parse hcall, List.mem_append, DescribedActions.during]
  refine and_congr_left fun hname => ?_
  cases app.isCreating with
  | true => simp
  | false =>
      -- with both lists empty no action is left, so the phase alone decides here
      cases hlist : actions.call with
      | nil =>
          rw [hlist] at hname
          have hsome := List.ne_nil_of_mem (hname.resolve_right List.not_mem_nil)
          simp [hsome]
      | cons name names => simp

/-- **A PHASE WITHOUT ACTIONS IS CLOSED, AN OPEN PHASE TAKES THE ACTIONS OF BOTH.**  Every method of
    a description that lists actions is admitted when the list of the phase is not empty and one
    of both lists names the action of the call. -/
theorem checkRouting_of_described {text : String} {contract : Contract}
    (h : parse text = .ok contract) :
    ∃ tree d, Json.parse text = some tree ∧ readContract tree = some d ∧
      d.methods.length = contract.methods.length ∧
      ∀ (i : Nat) (described : DescribedMethod) (m : Method) (actions : DescribedActions),
        d.methods[i]? = some described → contract.methods[i]? = some m →
        described.actions = some actions →
        ∀ (l : Ledger) (g : Group) (id : UInt64) (app : Application) (c : AppCall),
          l.application id = .ok app → g.activeCall = .ok c →
          (m.checkRouting l g id = .ok () ↔
            actions.during app.isCreating ≠ [] ∧
              c.onCompletion.name ∈ actions.create ++ actions.call) := by
  obtain ⟨tree, d, htree, hread, -, hmethods⟩ := parse_eq_ok_iff.mp h
  refine ⟨tree, d, htree, hread, (length_of_mapM hmethods).symm, ?_⟩
  intro i described m actions hdescribed hm hactions l g id app c happ hc
  obtain ⟨m', hm', hof⟩ := exists_getElem?_of_mapM hmethods hdescribed
  obtain rfl : m' = m := Option.some.inj (hm'.symm.trans hm)
  exact checkRouting_of_methodOf hof hactions happ hc

/-! ## A description with two lists -/

/-- A contract with one method, which is created with `NoOp` and called with `OptIn`. -/
def twoPhases : String :=
  "\x7b\"name\": \"Club\", \"methods\": [\x7b\"name\": \"join\", \"returns\": \x7b\"type\": \"void\"\x7d, " ++
    "\"actions\": \x7b\"create\": [\"NoOp\"], \"call\": [\"OptIn\"]\x7d\x7d]\x7d"

/-- Its method as it is described. -/
def describedJoin : DescribedMethod where
  name := "join"
  returns := "void"
  actions := some { create := ["NoOp"], call := ["OptIn"] }

/-- Its method as it is read, with both actions in one list. -/
def joinMethod : Method where
  name := "join"
  args := []
  returns := none
  allowed := [.optIn, .noOp]
  creation := .allow

/-- A ledger with one application, which is or is not being created. -/
def phaseLedger (isCreating : Bool) : Ledger :=
  { Ledger.new {} with
    applications := ⟨[(1001, { Application.new 1001 .zero {} with isCreating })]⟩ }

/-- A group of one call of that application. -/
def phaseGroup (onCompletion : OnCompletion) : Group where
  transactions := [.ofCall .zero { app := 1001, onCompletion }]
  active := 0
  scratch := [.fresh]

theorem parse_twoPhases : parse twoPhases = .ok ⟨"Club", [joinMethod]⟩ := by decide +kernel

theorem readContract_twoPhases :
    (Json.parse twoPhases).bind readContract = some ⟨"Club", [describedJoin]⟩ := by
  decide +kernel

/-- While its application is created, the method takes the action of both phases and no other. -/
theorem checkRouting_of_described_twoPhases :
    parse twoPhases = .ok ⟨"Club", [joinMethod]⟩ ∧
      joinMethod.checkRouting (phaseLedger true) (phaseGroup .optIn) 1001 = .ok () ∧
      joinMethod.checkRouting (phaseLedger true) (phaseGroup .closeOut) 1001 ≠ .ok () := by
  obtain ⟨tree, d, htree, hread, -, hrouting⟩ := checkRouting_of_described parse_twoPhases
  have hd := readContract_twoPhases
  rw [htree, Option.bind_some, hread, Option.some.injEq] at hd
  subst hd
  have hjoin := hrouting 0 describedJoin joinMethod _ rfl rfl rfl (phaseLedger true)
  refine ⟨parse_twoPhases, ?_, fun htaken => ?_⟩
  · refine (hjoin (phaseGroup .optIn) 1001 _ _ rfl rfl).mpr ⟨?_, ?_⟩
    · exact List.cons_ne_nil "NoOp" []
    · show "OptIn" ∈ ["NoOp", "OptIn"]
      decide
  · have hname := ((hjoin (phaseGroup .closeOut) 1001 _ _ rfl rfl).mp htaken).2
    exact absurd (show "CloseOut" ∈ ["NoOp", "OptIn"] from hname) (by decide)

/-- **PHASES ARE NOT KEPT APART**: a call that is described for later is taken while the
    application is created. -/
theorem checkRouting_not_by_phase :
    ¬∀ (text : String) (contract : Contract) (tree : Json) (d : Description),
      parse text = .ok contract → Json.parse text = some tree → readContract tree = some d →
      ∀ (i : Nat) (described : DescribedMethod) (m : Method) (actions : DescribedActions),
        d.methods[i]? = some described → contract.methods[i]? = some m →
        described.actions = some actions →
        ∀ (l : Ledger) (g : Group) (id : UInt64) (app : Application) (c : AppCall),
          l.application id = .ok app → g.activeCall = .ok c →
          (m.checkRouting l g id = .ok () ↔
            c.onCompletion.name ∈ actions.during app.isCreating) := by
  intro hall
  obtain ⟨tree, htree, hread⟩ := Option.bind_eq_some_iff.mp readContract_twoPhases
  have htaken : joinMethod.checkRouting (phaseLedger true) (phaseGroup .optIn) 1001 = .ok () := rfl
  have hname := (hall twoPhases _ tree _ parse_twoPhases htree hread 0 describedJoin joinMethod _
    rfl rfl rfl (phaseLedger true) (phaseGroup .optIn) 1001 _ _ rfl rfl).mp htaken
  exact absurd (show "OptIn" ∈ ["NoOp"] from hname) (by decide)

end Description

end AvmSandbox
