import AvmSandbox.Proofs.Chain.Groups
import AvmSandbox.Proofs.Ledger.Reachable

/-! # Composition — one inner group is its members submitted singly

    A call may compose all its inner transactions and submit them together, or
    submit them one by one.  The first way stages the group on a copy of the
    ledger, numbers the transactions through and looks up the issuer once; the
    second does everything anew for each of them.

    What both come to is a plain fold: the effects of one transaction after the
    other, each behind those it carries.  The places that transactions are given
    do not matter for it, and neither does the issuing application change on the
    way, because new applications get other ids.

    * `Transaction.unplaced` and `applyEffects_placed`: places and effects;
    * `issueAll`: what is issued, by value;
    * `Staging.issueAll_of_addAll` and `Staging.exists_addAll`: staging is that
      fold, as long as nobody observes;
    * `Chain.Issuing`: chains whose active call may issue, and a submission there;
    * `Chain.submitTogether_agrees_submitEach`: both ways. -/

namespace AvmSandbox

open AvmSandbox.Action

/-! ## Places -/

namespace Transaction

/-- The transaction in another place of its group, under another identifier. -/
def placed (t : Transaction) (groupIndex : Nat) (id : Bytes32) : Transaction :=
  { t with header := { t.header with groupIndex, id } }

/-- The transaction but for its place and identifier. -/
def unplaced (t : Transaction) : Transaction := t.placed 0 .zero

@[simp] theorem unplaced_placed (t : Transaction) (groupIndex : Nat) (id : Bytes32) :
    (t.placed groupIndex id).unplaced = t.unplaced := rfl

end Transaction

theorem Group.map_unplaced_number (start : Nat) (ts : List Transaction) :
    (Group.number start ts).map Transaction.unplaced = ts.map Transaction.unplaced := by
  induction ts generalizing start with
  | nil => rfl
  | cons t ts ih =>
      rw [Group.number, List.map_cons, List.map_cons, ih]
      rfl

/-- Effects do not depend on the place of a transaction, which keeps it. -/
theorem applyEffects_placed (t : Transaction) (groupIndex : Nat) (id : Bytes32) (l : Ledger) :
    applyEffects (t.placed groupIndex id) l
      = (applyEffects t l).map fun r => (r.1.placed groupIndex id, r.2) := by
  obtain ⟨header, body⟩ := t
  simp only [applyEffects, Transaction.placed]
  -- whatever the ledger answers, the header is handed through
  cases body with
  | assetConfig x =>
      by_cases hnew : x.asset = 0
      · simp only [if_pos hnew]
        cases l.createAsset header.sender x.params <;> rfl
      · simp only [if_neg hnew]
        cases l.configureAsset x.asset x.params <;> rfl
  | assetTransfer x =>
      show (if x.amount = 0 ∧ x.receiver = header.sender then _ else _ : Result _)
        = Except.map _ (if x.amount = 0 ∧ x.receiver = header.sender then _ else _)
      by_cases hopts : x.amount = 0 ∧ x.receiver = header.sender
      · rw [if_pos hopts, if_pos hopts]
        cases l.optInAsset x.asset header.sender <;> rfl
      · rw [if_neg hopts, if_neg hopts]
        rfl
  | call c =>
      by_cases hnew : c.app = 0
      · simp only [if_pos hnew]
        cases l.createApplication header.sender c.program <;> rfl
      · simp only [if_neg hnew]
        cases c.onCompletion with
        | optIn =>
            dsimp only
            cases l.optIn c.app header.sender <;> rfl
        | closeOut | clearState =>
            dsimp only
            rcases l.isOptedIn c.app header.sender with e | _ | _
            · rfl
            · rfl
            · cases l.closeOut c.app header.sender <;> rfl
        | _ =>
            dsimp only
            cases l.application c.app <;> rfl
  | _ => rfl

/-! ## The issuer -/

namespace Ledger

/-- Whether an application is registered with an address, and its id not to be handed out again. -/
def Hosts (l : Ledger) (id : UInt64) (address : Address) : Prop :=
  id < l.nextAppId ∧ ∃ app, l.applications.get? id = some app ∧ app.address = address

variable {l l' : Ledger} {id : UInt64} {address : Address}

theorem Hosts.exists_application (h : l.Hosts id address) :
    ∃ app, l.application id = .ok app ∧ app.address = address := by
  obtain ⟨-, app, happ, haddress⟩ := h
  exact ⟨app, application_eq_ok_iff.mpr happ, haddress⟩

theorem Hosts.address_eq {app : Application} (h : l.Hosts id address)
    (happ : l.application id = .ok app) : app.address = address := by
  obtain ⟨other, hother, rfl⟩ := h.exists_application
  rw [Except.ok.inj (happ.symm.trans hother)]

/-- Another record of an application has the address that it had. -/
theorem Hosts.withApplication {other : UInt64} {old new : Application} (h : l.Hosts id address)
    (hold : l.applications.get? other = some old) (hnew : new.address = old.address) :
    (l.withApplication other new).Hosts id address := by
  obtain ⟨hid, app, happ, rfl⟩ := h
  refine ⟨hid, ?_⟩
  rw [get?_withApplication]
  by_cases hother : id = other
  · obtain rfl := hother
    obtain rfl := Option.some.inj (happ.symm.trans hold)
    exact ⟨new, if_pos rfl, hnew⟩
  · exact ⟨app, by rw [if_neg hother, happ], rfl⟩

theorem Hosts.optIn {other : UInt64} {x : Address} (h : l.Hosts id address)
    (hopt : l.optIn other x = .ok l') : l'.Hosts id address := by
  obtain ⟨app, happ, hopt⟩ := bind_eq_ok_iff.mp hopt
  split at hopt
  · obtain rfl := pure_eq_ok_iff.mp hopt
    exact h
  · obtain rfl := pure_eq_ok_iff.mp hopt
    have haddress : ({ app with locals := app.locals.insert x {} } : Application).address
        = app.address := rfl
    exact h.withApplication (application_eq_ok_iff.mp happ) haddress

theorem Hosts.closeOut {other : UInt64} {x : Address} (h : l.Hosts id address)
    (hclose : l.closeOut other x = .ok l') : l'.Hosts id address := by
  obtain ⟨app, happ, -, -, rfl⟩ := closeOut_eq_ok_iff.mp hclose
  have haddress : ({ app with locals := app.locals.erase x } : Application).address
      = app.address := rfl
  exact h.withApplication happ haddress

/-- A new application gets the id that is not handed out yet. -/
theorem Hosts.createApplication {creator : Address} {program : Program} {new : UInt64}
    (h : l.Hosts id address) (hcreate : l.createApplication creator program = .ok (new, l')) :
    l'.Hosts id address := by
  obtain ⟨rfl, next, pages, hnext, -, rfl⟩ := of_createApplication hcreate
  obtain ⟨hid, app, happ, rfl⟩ := h
  have hne : id ≠ l.nextAppId := by
    intro heq
    rw [heq] at hid
    exact absurd hid (UInt64.lt_irrefl _)
  refine ⟨UInt64.lt_trans hid (lt_of_nextId hnext), app, ?_, rfl⟩
  show (l.applications.insert _ _).get? id = some app
  rw [Table.get?_insert, if_neg hne, happ]

end Ledger

/-- No transaction takes the issuer or its address away. -/
theorem hosts_of_applyEffects {t t' : Transaction} {l l' : Ledger} {id : UInt64}
    {address : Address} (hhosts : l.Hosts id address) (h : applyEffects t l = .ok (t', l')) :
    l'.Hosts id address := by
  cases effect_of_applyEffects h with
  | createAsset _ hcreate =>
      obtain ⟨-, next, -, rfl⟩ := Ledger.of_createAsset hcreate
      exact hhosts
  | configureAsset _ hconfigure =>
      obtain ⟨asset, -, hconfigure⟩ := bind_eq_ok_iff.mp hconfigure
      cases hconfigure
      exact hhosts
  | optInAsset _ hopted =>
      obtain ⟨asset, -, hopted⟩ := bind_eq_ok_iff.mp hopted
      cases hopted
      exact hhosts
  | createApplication _ _ hcreate => exact hhosts.createApplication hcreate
  | optIn _ _ hopted => exact hhosts.optIn hopted
  | closeOut _ _ hclosed => exact hhosts.closeOut hclosed
  | absent _ _ _ | nothing _ => exact hhosts

/-! ## Effects one after the other -/

/-- How many transactions field sets form, with those that they carry. -/
def InnerParams.flatSize : List InnerParams → Nat
  | [] => 0
  | p :: ps => p.nested.length + 1 + flatSize ps

/-- What field sets form in order, each behind the transactions it carries, and what comes of the
    ledger.  No transaction has a place yet. -/
def issueAll (issuer : Address) :
    List InnerParams → Ledger → Result (List Transaction × Ledger)
  | [], l => .ok ([], l)
  | p :: ps, l => do
      let (t, l) ← applyEffects (p.withoutNested.toTransaction issuer 0 .zero) l
      let (ts, l) ← issueAll issuer ps l
      return (p.nested.map Transaction.unplaced ++ t.unplaced :: ts, l)

theorem issueAll_cons_eq_ok_iff {issuer : Address} {p : InnerParams} {ps : List InnerParams}
    {l l' : Ledger} {ts : List Transaction} :
    issueAll issuer (p :: ps) l = .ok (ts, l') ↔
      ∃ t l₁ rest, applyEffects (p.withoutNested.toTransaction issuer 0 .zero) l = .ok (t, l₁) ∧
        issueAll issuer ps l₁ = .ok (rest, l') ∧
        ts = p.nested.map Transaction.unplaced ++ t.unplaced :: rest := by
  rw [issueAll]
  simp only [bind_eq_ok_iff, pure_eq_ok_iff, Prod.exists, Prod.mk.injEq]
  constructor
  · rintro ⟨t, l₁, heffects, rest, l₂, hrest, rfl, rfl⟩
    exact ⟨t, l₁, rest, heffects, hrest, rfl⟩
  · rintro ⟨t, l₁, rest, heffects, hrest, rfl⟩
    exact ⟨t, l₁, heffects, rest, l', hrest, rfl, rfl⟩

/-- The first field set by itself, and the others behind it. -/
theorem issueAll_cons_eq_ok_iff_single {issuer : Address} {p : InnerParams}
    {ps : List InnerParams} {l l' : Ledger} {ts : List Transaction} :
    issueAll issuer (p :: ps) l = .ok (ts, l') ↔
      ∃ first l₁ rest, issueAll issuer [p] l = .ok (first, l₁) ∧
        issueAll issuer ps l₁ = .ok (rest, l') ∧ ts = first ++ rest := by
  rw [issueAll_cons_eq_ok_iff]
  constructor
  · rintro ⟨t, l₁, rest, heffects, hrest, rfl⟩
    refine ⟨_, l₁, rest, issueAll_cons_eq_ok_iff.mpr ⟨t, l₁, [], heffects, rfl, rfl⟩, hrest, ?_⟩
    rw [List.append_assoc, List.singleton_append]
  · rintro ⟨first, l₁, rest, hfirst, hrest, rfl⟩
    obtain ⟨t, l₂, none, heffects, hnone, rfl⟩ := issueAll_cons_eq_ok_iff.mp hfirst
    cases hnone
    refine ⟨t, l₁, rest, heffects, hrest, ?_⟩
    rw [List.append_assoc, List.singleton_append]

/-- The issuer stays registered, whatever it issues. -/
theorem hosts_of_issueAll {issuer : Address} {ps : List InnerParams} {l l' : Ledger}
    {ts : List Transaction} {id : UInt64} {address : Address} (hhosts : l.Hosts id address)
    (h : issueAll issuer ps l = .ok (ts, l')) : l'.Hosts id address := by
  induction ps generalizing l ts with
  | nil =>
      cases h
      exact hhosts
  | cons p ps ih =>
      obtain ⟨t, l₁, rest, heffects, hrest, -⟩ := issueAll_cons_eq_ok_iff.mp h
      exact ih (hosts_of_applyEffects hhosts heffects) hrest

namespace Staging

variable {issuer : Address} {s s' : Staging} {u : Unit}

/-- Without observers a transaction joins when its effects succeed, wherever it is placed. -/
theorem yields_add_unobserved_iff {p : InnerParams} :
    Yields (add issuer [] p) s u s' ↔
      ∃ t l position id,
        applyEffects (p.withoutNested.toTransaction issuer 0 .zero) s.ledger = .ok (t, l) ∧
        position = s.done.length + p.nested.length ∧
        id = transactionId (p.sender.getD issuer) position (s.counter + 1) ∧
        s' = ⟨l, s.done ++ Group.number s.done.length p.nested ++ [t.placed position id],
          s.counter + 1⟩ := by
  have hnotify : ∀ t, Observer.notify [] t = .ok t := by
    intro t
    rw [Observer.notify]
    split <;> rfl
  have hplaced : ∀ position id, applyEffects (p.withoutNested.toTransaction issuer position id)
      s.ledger = (applyEffects (p.withoutNested.toTransaction issuer 0 .zero) s.ledger).map
        fun r => (r.1.placed position id, r.2) :=
    fun position id =>
      applyEffects_placed (p.withoutNested.toTransaction issuer 0 .zero) position id s.ledger
  rw [yields_add_iff, hplaced]
  simp only [hnotify, Except.ok.injEq]
  constructor
  · rintro ⟨t, l, t', heffects, rfl, rfl⟩
    rcases hr : applyEffects (p.withoutNested.toTransaction issuer 0 .zero) s.ledger with e | ⟨t₀, l₀⟩
    · rw [hr] at heffects
      cases heffects
    · rw [hr] at heffects
      cases heffects
      exact ⟨t₀, l₀, _, _, rfl, rfl, rfl, rfl⟩
  · rintro ⟨t, l, position, id, heffects, rfl, rfl, rfl⟩
    exact ⟨_, l, _, by rw [heffects]; rfl, rfl, rfl⟩

/-- **STAGING IS EFFECT AFTER EFFECT.**  What was staged are the transactions that the field sets
    form, but for their places. -/
theorem issueAll_of_addAll {ps : List InnerParams} (h : Yields (addAll issuer [] ps) s u s') :
    s'.done.length = s.done.length + InnerParams.flatSize ps ∧
      ∃ ts, issueAll issuer ps s.ledger = .ok (ts, s'.ledger) ∧
        s'.done.map Transaction.unplaced = s.done.map Transaction.unplaced ++ ts := by
  induction ps generalizing s with
  | nil =>
      obtain ⟨-, rfl⟩ := yields_pure.mp h
      exact ⟨rfl, [], rfl, (List.append_nil _).symm⟩
  | cons p ps ih =>
      obtain ⟨_, middle, hadd, hrest⟩ := yields_bind.mp h
      obtain ⟨t, l, position, id, heffects, -, -, rfl⟩ := yields_add_unobserved_iff.mp hadd
      obtain ⟨hlength, rest, hissue, hdone⟩ := ih hrest
      refine ⟨?_, _, issueAll_cons_eq_ok_iff.mpr ⟨t, l, rest, heffects, hissue, rfl⟩, ?_⟩
      · rw [hlength, InnerParams.flatSize]
        simp only [List.length_append, Group.length_number, List.length_singleton]
        omega
      · rw [hdone]
        simp only [List.map_append, Group.map_unplaced_number, List.map_singleton,
          Transaction.unplaced_placed, List.append_assoc, List.singleton_append]

/-- Conversely, where all effects succeed so does staging. -/
theorem exists_addAll {ps : List InnerParams} {ts : List Transaction} {l : Ledger}
    (h : issueAll issuer ps s.ledger = .ok (ts, l)) :
    ∃ s', Yields (addAll issuer [] ps) s () s' := by
  induction ps generalizing s ts with
  | nil => exact ⟨s, yields_pure.mpr ⟨rfl, rfl⟩⟩
  | cons p ps ih =>
      obtain ⟨t, l₁, rest, heffects, hissue, -⟩ := issueAll_cons_eq_ok_iff.mp h
      have hadd : Yields (add issuer [] p) s () _ :=
        yields_add_unobserved_iff.mpr ⟨t, l₁, _, _, heffects, rfl, rfl, rfl⟩
      obtain ⟨s', hrest⟩ := ih (s := ⟨l₁, _, _⟩) hissue
      exact ⟨s', yields_bind.mpr ⟨(), _, hadd, hrest⟩⟩

end Staging

theorem InnerParams.length_le_flatSize (ps : List InnerParams) : ps.length ≤ flatSize ps := by
  induction ps with
  | nil => exact Nat.le_refl _
  | cons p ps ih =>
      rw [flatSize, List.length_cons]
      omega

/-! ## Composing -/

namespace Group

/-- Composes further inner transactions. -/
def composeMore (g : Group) : List InnerParams → Result Group
  | [] => .ok g
  | p :: ps => do composeMore (← (← g.nextInner).replaceInner p) ps

/-- Composes a group of inner transactions. -/
def compose (g : Group) (p : InnerParams) (ps : List InnerParams) : Result Group := do
  composeMore (← (← g.beginInner).replaceInner p) ps

/-- The group whose active call has issued more, in whatever inner groups. -/
def issued (g : Group) (t : Transaction) (call : AppCall) (done : List Transaction)
    (innerGroups : List (List Transaction)) : Group :=
  { g with
    transactions := g.transactions.set g.active
      { t with body := .call { call with inner := call.inner ++ done } }
    innerGroups
    composing := none }

variable {g : Group} {t : Transaction} {call : AppCall}

theorem replaceInner_composing (before : List InnerParams) (p : InnerParams) :
    replaceInner { g with composing := some (before ++ [{}]) } p
      = .ok { g with composing := some (before ++ [p]) } := by
  simp [replaceInner, modifyInner]

theorem composeMore_eq (before ps : List InnerParams) :
    composeMore { g with composing := some before } ps
      = .ok { g with composing := some (before ++ ps) } := by
  induction ps generalizing before with
  | nil => rw [composeMore, List.append_nil]
  | cons p ps ih =>
      rw [composeMore, nextInner]
      simp only [ok_bind, replaceInner_composing, ih]
      rw [List.append_assoc, List.singleton_append]

/-- What is composed, one after the other, is the list of it. -/
theorem compose_eq (hbegin : g.beginInner = .ok { g with composing := some [{}] })
    (p : InnerParams) (ps : List InnerParams) :
    g.compose p ps = .ok { g with composing := some (p :: ps) } := by
  rw [compose, hbegin]
  show (replaceInner { g with composing := some ([] ++ [{}]) } p >>= fun g => composeMore g ps) = _
  rw [replaceInner_composing]
  exact composeMore_eq [p] ps

/-- A call that has issued nothing is as it was. -/
theorem issued_nil (ht : g.transactions[g.active]? = some t) (hcall : t.body = .call call)
    (hclosed : g.composing = none) : g.issued t call [] g.innerGroups = g := by
  obtain ⟨hlt, ht⟩ := List.getElem?_eq_some_iff.mp ht
  have hsame : ({ t with body := .call { call with inner := call.inner ++ [] } } : Transaction)
      = g.transactions[g.active] := by
    rw [List.append_nil, ht]
    obtain ⟨header, body⟩ := t
    obtain rfl : body = .call call := hcall
    rfl
  rw [issued, hsame, List.set_getElem_self, ← hclosed]

/-- What a call issues in two steps. -/
theorem issued_issued (done more : List Transaction) (groups groups' : List (List Transaction)) :
    (g.issued t call done groups).issued
        { t with body := .call { call with inner := call.inner ++ done } }
        { call with inner := call.inner ++ done } more groups'
      = g.issued t call (done ++ more) groups' := by
  simp only [issued, List.set_set, List.append_assoc]

end Group

namespace Chain

/-- Whether the active call of the open group may issue inner transactions: it composes none yet,
    does not clear state, and nobody observes. -/
structure Issuing (c : Chain) (g : Group) (t : Transaction) (call : AppCall) : Prop where
  current : c.timeline.current = some g
  active : g.transactions[g.active]? = some t
  body : t.body = .call call
  keepsState : call.onCompletion ≠ .clearState
  closed : g.composing = none
  unobserved : c.timeline.observers = []

/-- The chain with inner transactions under composition. -/
def composed (c : Chain) (g : Group) (ps : List InnerParams) : Chain :=
  { c with timeline := { c.timeline with current := some { g with composing := some ps } } }

/-- The chain whose active call has issued more, with a ledger and a number of identifiers made. -/
def issued (c : Chain) (g : Group) (t : Transaction) (call : AppCall) (ledger : Ledger)
    (done : List Transaction) (innerGroups : List (List Transaction)) (counter : Nat) : Chain where
  ledger
  timeline :=
    { c.timeline with
      current := some (g.issued t call done innerGroups)
      counter }

variable {c c' : Chain} {g : Group} {t : Transaction} {call : AppCall} {p : InnerParams}
  {ps : List InnerParams} {submitted : List Transaction} {address : Address} {l : Ledger}

theorem Issuing.beginInner (h : Issuing c g t call) :
    g.beginInner = .ok { g with composing := some [{}] } :=
  Group.beginInner_eq_ok_iff.mpr ⟨h.closed, ⟨t, call, h.active, h.body, h.keepsState⟩, rfl⟩

/-- A call that has issued may issue again. -/
theorem Issuing.issued (h : Issuing c g t call) (ledger : Ledger) (done : List Transaction)
    (innerGroups : List (List Transaction)) (counter : Nat) :
    Issuing (c.issued g t call ledger done innerGroups counter)
      (g.issued t call done innerGroups)
      { t with body := .call { call with inner := call.inner ++ done } }
      { call with inner := call.inner ++ done } where
  current := rfl
  active := List.getElem?_set_self (List.getElem?_eq_some_iff.mp h.active).1
  body := rfl
  keepsState := h.keepsState
  closed := rfl
  unobserved := h.unobserved

/-- A submission of what is composed is staged under the address of the issuer and committed. -/
theorem yields_submitInner_composed_iff (h : Issuing c g t call)
    (hsize : InnerParams.flatSize ps ≤ Limits.group) :
    Yields submitInner (c.composed g ps) submitted c' ↔
      ∃ record s, c.ledger.application call.app = .ok record ∧
        Yields (Staging.addAll record.address [] ps)
          { ledger := c.ledger, counter := c.timeline.counter } () s ∧
        submitted = s.done ∧
        c' = c.issued g t call s.ledger s.done (g.innerGroups ++ [s.done]) s.counter := by
  have hcommit : ∀ s : Staging, Yields (commitInner s)
      { c with
        timeline :=
          { c.timeline with
            current := some { g with composing := none }
            counter := s.counter } }
      s.done (c.issued g t call s.ledger s.done (g.innerGroups ++ [s.done]) s.counter) :=
    fun s => yields_commitInner (g := { g with composing := none }) s rfl h.active h.body
  have hunobserved : (c.composed g ps).timeline.observers = [] := h.unobserved
  rw [submitInner, yields_bind]
  simp only [yields_stageInner_iff]
  constructor
  · rintro ⟨s, c₁, ⟨g', app, record, params, hg', happ, hrecord, hparams, -, hadd, -, rfl⟩, hlast⟩
    rw [hunobserved] at hadd
    -- the group, the call and what is composed are those of the chain
    obtain rfl := Option.some.inj hg'
    obtain rfl := Option.some.inj hparams
    obtain ⟨t', call', ht', hcall', rfl⟩ := Group.activeApp_eq_ok_iff.mp happ
    obtain rfl := Option.some.inj (h.active.symm.trans ht')
    obtain rfl := Body.call.inj (h.body.symm.trans hcall')
    obtain ⟨hsubmitted, hc'⟩ := Prod.mk.inj (hlast.symm.trans (hcommit s))
    exact ⟨record, s, hrecord, hadd, Except.ok.inj hsubmitted, hc'⟩
  · rintro ⟨record, s, hrecord, hadd, rfl, rfl⟩
    have hlength : s.done.length = InnerParams.flatSize ps := by
      simpa using (Staging.issueAll_of_addAll hadd).1
    refine ⟨s, _, ⟨{ g with composing := some ps }, call.app, record, ps, rfl, ?_, hrecord, rfl,
      ?_, ?_, hlength ▸ hsize, rfl⟩, hcommit s⟩
    · exact Group.activeApp_eq_ok_iff.mpr ⟨t, call, h.active, h.body, rfl⟩
    · exact Nat.le_trans (InnerParams.length_le_flatSize ps) hsize
    · rw [hunobserved]
      exact hadd

/-! ## Together and one by one -/

/-- Composes inner transactions and submits them as one group. -/
def submitTogether (p : InnerParams) (ps : List InnerParams) : ChainAction (List Transaction) := do
  let tl ← (← get).timeline.modifyGroup fun g => g.compose p ps
  modify fun c => { c with timeline := tl }
  submitInner

/-- Submits inner transactions one by one. -/
def submitEach : List InnerParams → ChainAction (List Transaction)
  | [] => return []
  | p :: ps => do
      let t ← submitSingle p
      return t :: (← submitEach ps)

/-- The inner transactions that each transaction of the open group has issued, but for their
    places and identifiers. -/
def innerUnplaced (c : Chain) : Option (List (List Transaction)) :=
  c.timeline.current.map fun g =>
    g.transactions.map fun t => t.body.inner.map Transaction.unplaced

theorem yields_submitTogether_iff (h : Issuing c g t call) :
    Yields (submitTogether p ps) c submitted c' ↔
      Yields submitInner (c.composed g (p :: ps)) submitted c' := by
  have hcompose : (c.timeline.modifyGroup fun g => g.compose p ps)
      = .ok { c.timeline with current := some { g with composing := some (p :: ps) } } := by
    rw [Timeline.modifyGroup, Timeline.group, h.current]
    simp only [ok_bind, Group.compose_eq h.beginInner]
    rfl
  rw [submitTogether, yields_get_bind, hcompose, yields_lift_bind]
  simp only [Except.ok.injEq, exists_eq_left', yields_modify_bind]
  rfl

/-- A single submission is a composition of one. -/
theorem yields_submitSingle_iff (h : Issuing c g t call)
    (hsize : InnerParams.flatSize [p] ≤ Limits.group) :
    (∃ last, Yields (submitSingle p) c last c') ↔
      ∃ submitted, Yields submitInner (c.composed g [p]) submitted c' := by
  have hbegin : c.timeline.modifyGroup Group.beginInner
      = .ok { c.timeline with current := some { g with composing := some [{}] } } := by
    rw [Timeline.modifyGroup, Timeline.group, h.current]
    simp only [ok_bind, h.beginInner]
    rfl
  have hreplace : (Timeline.modifyGroup
        { c.timeline with current := some { g with composing := some [{}] } }
        fun g => g.replaceInner p)
      = .ok { c.timeline with current := some { g with composing := some [p] } } := rfl
  simp only [submitSingle, yields_get_bind, hbegin, yields_lift_bind, Except.ok.injEq,
    exists_eq_left', hreplace, yields_modify_bind]
  simp only [yields_bind]
  constructor
  · rintro ⟨last, submitted, c₁, hsubmit, hlast⟩
    cases hget : submitted.getLast? with
    | none =>
        rw [hget] at hlast
        exact absurd hlast not_yields_throw
    | some found =>
        rw [hget] at hlast
        obtain ⟨-, rfl⟩ := yields_pure.mp hlast
        exact ⟨submitted, hsubmit⟩
  · rintro ⟨submitted, hsubmit⟩
    -- the transaction that is composed stands last in what is submitted
    obtain ⟨record, s, -, hadd, rfl, -⟩ := (yields_submitInner_composed_iff h hsize).mp hsubmit
    have hlength : s.done.length = p.nested.length + 1 := by
      simpa [InnerParams.flatSize] using (Staging.issueAll_of_addAll hadd).1
    have hne : s.done ≠ [] := by
      intro hnil
      rw [hnil] at hlength
      cases hlength
    refine ⟨s.done.getLast hne, s.done, c', hsubmit, ?_⟩
    rw [List.getLast?_eq_some_getLast hne]
    exact yields_pure.mpr ⟨rfl, rfl⟩

/-- What a call has issued by single submissions, one after the other. -/
theorem issueAll_of_submitEach {each : List Transaction} (h : Issuing c g t call)
    (hhosts : c.ledger.Hosts call.app address) (hsize : InnerParams.flatSize ps ≤ Limits.group)
    (heach : Yields (submitEach ps) c each c') :
    ∃ l done innerGroups counter,
      issueAll address ps c.ledger = .ok (done.map Transaction.unplaced, l) ∧
      c' = c.issued g t call l done innerGroups counter := by
  induction ps generalizing c g t call each with
  | nil =>
      obtain ⟨-, rfl⟩ := yields_pure.mp heach
      refine ⟨c.ledger, [], g.innerGroups, c.timeline.counter, rfl, ?_⟩
      rw [issued, Group.issued_nil h.active h.body h.closed, ← h.current]
  | cons p ps ih =>
      obtain ⟨last, c₁, hsingle, hbehind⟩ := yields_bind.mp heach
      obtain ⟨rest, c₂, hothers, hend⟩ := yields_bind.mp hbehind
      obtain ⟨-, rfl⟩ := yields_pure.mp hend
      rw [InnerParams.flatSize] at hsize
      have hone : InnerParams.flatSize [p] ≤ Limits.group := by
        rw [InnerParams.flatSize, InnerParams.flatSize]
        omega
      obtain ⟨submitted, hsubmit⟩ := (yields_submitSingle_iff h hone).mp ⟨last, hsingle⟩
      obtain ⟨record, s, hrecord, hadd, -, rfl⟩ :=
        (yields_submitInner_composed_iff h hone).mp hsubmit
      obtain rfl := hhosts.address_eq hrecord
      obtain ⟨-, first, hfirst, hdone⟩ := Staging.issueAll_of_addAll hadd
      obtain rfl : s.done.map Transaction.unplaced = first := hdone
      -- the call goes on from the ledger that it has left, under the same address
      have hissuing := h.issued s.ledger s.done (g.innerGroups ++ [s.done]) s.counter
      obtain ⟨l, more, innerGroups, counter, hrest, rfl⟩ :=
        ih hissuing (hosts_of_issueAll hhosts hfirst) (by omega) hothers
      refine ⟨l, s.done ++ more, innerGroups, counter, ?_, ?_⟩
      · rw [List.map_append]
        exact issueAll_cons_eq_ok_iff_single.mpr ⟨_, s.ledger, _, hfirst, hrest, rfl⟩
      · rw [issued, issued, Group.issued_issued]
        rfl

/-- Conversely, where all effects succeed so do the single submissions. -/
theorem exists_submitEach {ts : List Transaction} (h : Issuing c g t call)
    (hhosts : c.ledger.Hosts call.app address) (hsize : InnerParams.flatSize ps ≤ Limits.group)
    (hissue : issueAll address ps c.ledger = .ok (ts, l)) :
    ∃ each c', Yields (submitEach ps) c each c' := by
  induction ps generalizing c g t call ts with
  | nil => exact ⟨[], c, yields_pure.mpr ⟨rfl, rfl⟩⟩
  | cons p ps ih =>
      rw [InnerParams.flatSize] at hsize
      have hone : InnerParams.flatSize [p] ≤ Limits.group := by
        rw [InnerParams.flatSize, InnerParams.flatSize]
        omega
      obtain ⟨first, l₁, rest, hfirst, hrest, -⟩ := issueAll_cons_eq_ok_iff_single.mp hissue
      obtain ⟨record, hrecord, rfl⟩ := hhosts.exists_application
      obtain ⟨s, hadd⟩ := Staging.exists_addAll (s := ⟨c.ledger, [], c.timeline.counter⟩) hfirst
      obtain ⟨-, done, hdone, -⟩ := Staging.issueAll_of_addAll hadd
      cases hfirst.symm.trans hdone
      have hsubmit : Yields submitInner (c.composed g [p]) s.done
          (c.issued g t call s.ledger s.done (g.innerGroups ++ [s.done]) s.counter) :=
        (yields_submitInner_composed_iff h hone).mpr ⟨record, s, hrecord, hadd, rfl, rfl⟩
      obtain ⟨last, hsingle⟩ := (yields_submitSingle_iff h hone).mpr ⟨_, hsubmit⟩
      have hissuing := h.issued s.ledger s.done (g.innerGroups ++ [s.done]) s.counter
      obtain ⟨each, c', heach⟩ :=
        ih hissuing (hosts_of_issueAll hhosts hfirst) (by omega) hrest
      exact ⟨last :: each, c', yields_bind.mpr ⟨last, _, hsingle,
        yields_bind.mpr ⟨each, c', heach, yields_pure.mpr ⟨rfl, rfl⟩⟩⟩⟩

/-- **TOGETHER IS ONE BY ONE.**  For a call that may issue and composes nothing yet, while nobody
    observes: a group of inner transactions of at most sixteen, those carried included, can be
    submitted together exactly when its members can be submitted one by one, and then both ways
    lead to the same ledger and to the same inner transactions, but for places and identifiers.
    The id of the issuer has been handed out, as every id in a ledger in use. -/
theorem submitTogether_agrees_submitEach (h : Issuing c g t call)
    (hissuer : ∀ record, c.ledger.application call.app = .ok record →
      call.app < c.ledger.nextAppId)
    (hsize : InnerParams.flatSize (p :: ps) ≤ Limits.group) :
    ((∃ submitted c', (submitTogether p ps).run c = (.ok submitted, c')) ↔
      ∃ each c', (submitEach (p :: ps)).run c = (.ok each, c')) ∧
    ∀ submitted each c₁ c₂, (submitTogether p ps).run c = (.ok submitted, c₁) →
      (submitEach (p :: ps)).run c = (.ok each, c₂) →
      c₁.ledger = c₂.ledger ∧ c₁.innerUnplaced = c₂.innerUnplaced := by
  have hone : InnerParams.flatSize [p] ≤ Limits.group := by
    rw [InnerParams.flatSize] at hsize
    rw [InnerParams.flatSize, InnerParams.flatSize]
    omega
  -- either way the first thing asked for is the record of the issuer
  have hhosts : ∀ record, c.ledger.application call.app = .ok record →
      c.ledger.Hosts call.app record.address := fun record hrecord =>
    ⟨hissuer record hrecord, record, Ledger.application_eq_ok_iff.mp hrecord, rfl⟩
  have htogether : ∀ {submitted c'}, Yields (submitTogether p ps) c submitted c' →
      ∃ record l counter, c.ledger.application call.app = .ok record ∧
        issueAll record.address (p :: ps) c.ledger
          = .ok (submitted.map Transaction.unplaced, l) ∧
        c' = c.issued g t call l submitted (g.innerGroups ++ [submitted]) counter := by
    intro submitted c' hyields
    obtain ⟨record, s, hrecord, hadd, rfl, rfl⟩ :=
      (yields_submitInner_composed_iff h hsize).mp ((yields_submitTogether_iff h).mp hyields)
    obtain ⟨-, ts, hissue, hdone⟩ := Staging.issueAll_of_addAll hadd
    obtain rfl : s.done.map Transaction.unplaced = ts := hdone
    exact ⟨record, s.ledger, s.counter, hrecord, hissue, rfl⟩
  have hrecorded : ∀ {each c'}, Yields (submitEach (p :: ps)) c each c' →
      ∃ record, c.ledger.application call.app = .ok record := by
    intro each c' hyields
    obtain ⟨last, c₁, hsingle, -⟩ := yields_bind.mp hyields
    obtain ⟨submitted, hsubmit⟩ := (yields_submitSingle_iff h hone).mp ⟨last, hsingle⟩
    obtain ⟨record, -, hrecord, -⟩ := (yields_submitInner_composed_iff h hone).mp hsubmit
    exact ⟨record, hrecord⟩
  refine ⟨⟨?_, ?_⟩, ?_⟩
  · rintro ⟨submitted, c', hrun⟩
    obtain ⟨record, l, counter, hrecord, hissue, -⟩ := htogether hrun
    exact exists_submitEach h (hhosts record hrecord) hsize hissue
  · rintro ⟨each, c', hrun⟩
    obtain ⟨record, hrecord⟩ := hrecorded hrun
    obtain ⟨l, done, -, -, hissue, -⟩ :=
      issueAll_of_submitEach h (hhosts record hrecord) hsize hrun
    obtain ⟨s, hadd⟩ := Staging.exists_addAll (s := ⟨c.ledger, [], c.timeline.counter⟩) hissue
    exact ⟨s.done, _, (yields_submitTogether_iff h).mpr
      ((yields_submitInner_composed_iff h hsize).mpr ⟨record, s, hrecord, hadd, rfl, rfl⟩)⟩
  · intro submitted each c₁ c₂ hrun₁ hrun₂
    obtain ⟨record, l, counter, hrecord, hissue, rfl⟩ := htogether hrun₁
    obtain ⟨l', done, innerGroups, counter', hissue', rfl⟩ :=
      issueAll_of_submitEach h (hhosts record hrecord) hsize hrun₂
    obtain ⟨hsame, rfl⟩ := Prod.mk.inj (Except.ok.inj (hissue.symm.trans hissue'))
    refine ⟨rfl, ?_⟩
    simp only [innerUnplaced, issued, Group.issued, Option.map_some, List.map_set, Body.inner,
      List.map_append, hsame]

/-- A chain on which a call of the first application may issue. -/
def calling : Chain where
  ledger := Ledger.Operation.after (Ledger.new {}) (.createApplication .zero {})
  timeline :=
    { Timeline.new .index with
      current := some {
        transactions := [.ofCall .zero { app := 1001 }]
        active := 0
        scratch := [.fresh] } }

/-- An asset is created, and a call that carries a payment opts in. -/
theorem submitTogether_agrees_submitEach_optIn :
    let creation : InnerParams := { body := .assetConfig {} }
    let call : InnerParams :=
      { body := .call { app := 1001, onCompletion := .optIn, inner := [⟨{}, .payment {}⟩] } }
    ∃ submitted each c₁ c₂, (submitTogether creation [call]).run calling = (.ok submitted, c₁) ∧
      (submitEach [creation, call]).run calling = (.ok each, c₂) ∧ submitted.length = 3 ∧
      c₁.ledger = c₂.ledger ∧ c₁.innerUnplaced = c₂.innerUnplaced := by
  intro creation call
  have hissuing : Issuing calling _ _ _ := {
    current := rfl
    active := rfl
    body := rfl
    keepsState := by decide
    closed := rfl
    unobserved := rfl }
  have hreachable : calling.ledger.Reachable := .step (.createApplication .zero {}) (.new {})
  have hissuer : ∀ record, calling.ledger.application 1001 = .ok record →
      1001 < calling.ledger.nextAppId := fun _ => hreachable.id_lt
  have hsize : InnerParams.flatSize [creation, call] ≤ Limits.group := by decide
  obtain ⟨hiff, hagree⟩ := submitTogether_agrees_submitEach hissuing hissuer hsize
  have hok : ((submitTogether creation [call]).run calling).1.isOk = true := by decide +kernel
  rcases hrun : (submitTogether creation [call]).run calling with ⟨e | submitted, c₁⟩
  · rw [hrun] at hok
    cases hok
  · obtain ⟨each, c₂, heach⟩ := hiff.mp ⟨submitted, c₁, hrun⟩
    obtain ⟨hledger, hinner⟩ := hagree submitted each c₁ c₂ hrun heach
    have hlength : submitted.length = 3 := by
      have hthree : ((submitTogether creation [call]).run calling).1.map List.length = .ok 3 := by
        decide +kernel
      rw [hrun] at hthree
      exact Except.ok.inj hthree
    exact ⟨submitted, each, c₁, c₂, rfl, heach, hlength, hledger, hinner⟩

end Chain

end AvmSandbox
