import AvmSandbox.Proofs.Group

/-! # Call logs — what a call may log, whoever logs it

    The log of an application call is changed in three ways: an entry is
    appended, a return value is set, or all of it is replaced.  Each way checks
    the limits against what the log is going to hold, so whatever the order of
    the changes and whichever of them fail, the log stays within the limits; and
    since nothing is appended behind a return value, there is one at most and it
    comes last.

    * `CallLog.Step`, with `edit` for what a change does to the log and `write`
      for what it is meant to do, entry by entry;
    * `CallLog.origins_of_edit` and `CallLog.append_eq_logAfterReturn_iff`: one
      change;
    * `Transaction.exists_editAll` and `Transaction.returned_stays`: a row of
      changes;
    * `Transaction.log_discipline`: what every row of changes leaves. -/

namespace AvmSandbox

open AvmSandbox.Action

namespace CallLog

/-! ## Entries and changes -/

/-- An entry of a log, by what has logged it. -/
inductive Entry where
  | plain (bytes : Bytes)
  | returned (e : EncodedValue)
  deriving DecidableEq

namespace Entry

def bytes : Entry → Bytes
  | plain bytes => bytes
  | returned e => e.log

def isPlain : Entry → Bool
  | plain _ => true
  | returned _ => false

end Entry

/-- A change of a log. -/
inductive Step where
  | append (entry : Bytes)
  | setReturn (e : EncodedValue)
  | replace (entries : List Bytes)

namespace Step

/-- Makes the change. -/
def edit : Step → CallLog → Result CallLog
  | append entry, log => log.append entry
  | setReturn e, log => log.setReturn e
  | replace entries, _ => CallLog.replace entries

/-- The entries a change leaves when it succeeds. -/
def write : Step → List Entry → List Entry
  | append entry, es => es ++ [.plain entry]
  | setReturn e, es => es.filter Entry.isPlain ++ [.returned e]
  | replace entries, _ => entries.map .plain

end Step

/-- The entries that changes have left, of which those that failed wrote nothing. -/
def written (outcomes : List (Step × Result Unit)) (es : List Entry) : List Entry :=
  outcomes.foldl (fun es outcome => if outcome.2.isOk then outcome.1.write es else es) es

/-- The entries of a log, by what has logged them. -/
def origins (log : CallLog) : List Entry :=
  log.plain.map .plain ++ log.returned.toList.map .returned

/-- A log within the limits. -/
structure Bounded (log : CallLog) : Prop where
  count : log.count ≤ Limits.logEntries
  size : size log.entries ≤ Limits.logBytes

/-! ## What a log shows -/

variable {log log' : CallLog}

theorem entries_eq (log : CallLog) : log.entries = log.origins.map Entry.bytes := by
  obtain ⟨plain, returned⟩ := log
  have hplain : plain.map (Entry.bytes ∘ Entry.plain) = plain := List.map_id plain
  cases returned with
  | none => simp [entries, origins, hplain]
  | some e => simp [entries, origins, hplain, Entry.bytes]

theorem count_eq (log : CallLog) : log.count = log.entries.length := by
  obtain ⟨plain, returned⟩ := log
  cases returned with
  | none => rfl
  | some e => simp [count, entries]

theorem last?_eq (log : CallLog) : log.last? = log.entries.getLast? := by
  obtain ⟨plain, returned⟩ := log
  cases returned with
  | none => rfl
  | some e => simp [last?, entries]

/-- Only the last entry can be a return value. -/
theorem isPlain_of_mem_dropLast {e : Entry} (h : e ∈ log.origins.dropLast) : e.isPlain = true := by
  obtain ⟨plain, returned⟩ := log
  have hplain : e ∈ plain.map Entry.plain := by
    cases returned with
    | none =>
        rw [origins, Option.toList_none, List.map_nil, List.append_nil] at h
        exact List.dropLast_subset _ h
    | some v =>
        rw [origins, Option.toList_some, List.map_singleton, List.dropLast_concat] at h
        exact h
  obtain ⟨bytes, -, rfl⟩ := List.mem_map.mp hplain
  rfl

/-- A return value that is set is the last entry. -/
theorem returned_eq_some_iff {e : EncodedValue} :
    log.returned = some e ↔ log.origins.getLast? = some (.returned e) := by
  obtain ⟨plain, returned⟩ := log
  cases returned with
  | none =>
      constructor
      · intro h
        cases h
      · intro h
        rw [origins, Option.toList_none, List.map_nil, List.append_nil] at h
        obtain ⟨bytes, -, hplain⟩ := List.mem_map.mp (List.mem_of_getLast? h)
        cases hplain
  | some v => simp [origins]

/-- All other entries are plain. -/
theorem filter_isPlain_origins (log : CallLog) :
    log.origins.filter Entry.isPlain = log.plain.map .plain := by
  rw [origins, List.filter_append]
  have hplain : (log.plain.map Entry.plain).filter Entry.isPlain = log.plain.map .plain := by
    refine List.filter_eq_self.mpr ?_
    intro e he
    obtain ⟨bytes, -, rfl⟩ := List.mem_map.mp he
    rfl
  have hreturned : (log.returned.toList.map Entry.returned).filter Entry.isPlain = [] := by
    refine List.filter_eq_nil_iff.mpr ?_
    intro e he
    obtain ⟨v, -, rfl⟩ := List.mem_map.mp he
    exact Bool.false_ne_true
  rw [hplain, hreturned, List.append_nil]

/-! ## One change -/

theorem checkLimits_eq_ok_iff {count bytes : Nat} :
    checkLimits count bytes = .ok () ↔ count ≤ Limits.logEntries ∧ bytes ≤ Limits.logBytes := by
  rw [checkLimits]
  split
  · simp
    omega
  · split
    · simp
      omega
    · simp
      omega

theorem size_concat (entries : List Bytes) (entry : Bytes) :
    size (entries ++ [entry]) = size entries + entry.length := by
  simp [size]

/-- A log is within the limits when its entries have passed the check. -/
theorem bounded_of_checkLimits {n bytes : Nat} (h : checkLimits n bytes = .ok ())
    (hn : log.entries.length = n) (hbytes : size log.entries = bytes) : log.Bounded := by
  obtain ⟨hcount, hsize⟩ := checkLimits_eq_ok_iff.mp h
  refine ⟨?_, ?_⟩
  · rw [count_eq, hn]
    exact hcount
  · rw [hbytes]
    exact hsize

theorem append_plain (plain : List Bytes) (entry : Bytes) :
    append ⟨plain, none⟩ entry
      = (checkLimits (plain.length + 1) (size plain + entry.length) >>= fun _ =>
          pure (⟨plain ++ [entry], none⟩ : CallLog)) := rfl

theorem bounded_empty : Bounded {} := ⟨by decide, by decide⟩

/-- A change that succeeds leaves the entries it is meant to leave, within the limits. -/
theorem origins_of_edit {s : Step} (h : s.edit log = .ok log') :
    log'.origins = s.write log.origins ∧ log'.Bounded := by
  cases s with
  | append entry =>
      obtain ⟨plain, returned⟩ := log
      cases returned with
      | some e => simp [Step.edit, append, bind_eq_ok_iff] at h
      | none =>
          rw [Step.edit, append_plain] at h
          obtain ⟨_, hlimits, h⟩ := bind_eq_ok_iff.mp h
          obtain rfl := pure_eq_ok_iff.mp h
          refine ⟨?_, bounded_of_checkLimits hlimits List.length_append (size_concat _ _)⟩
          simp [origins, Step.write]
  | setReturn e =>
      obtain ⟨_, hlimits, h⟩ := bind_eq_ok_iff.mp h
      obtain rfl := pure_eq_ok_iff.mp h
      refine ⟨?_, bounded_of_checkLimits hlimits List.length_append (size_concat _ _)⟩
      rw [Step.write, filter_isPlain_origins]
      rfl
  | replace entries =>
      obtain ⟨_, hlimits, h⟩ := bind_eq_ok_iff.mp h
      obtain rfl := pure_eq_ok_iff.mp h
      exact ⟨List.append_nil _, bounded_of_checkLimits hlimits rfl rfl⟩

/-- Nothing is appended behind a return value, and only then an entry is refused for it. -/
theorem append_eq_logAfterReturn_iff {entry : Bytes} :
    log.append entry = .error .logAfterReturn ↔ log.returned.isSome = true := by
  obtain ⟨plain, returned⟩ := log
  cases returned with
  | some e => exact ⟨fun _ => rfl, fun _ => rfl⟩
  | none =>
      constructor
      · intro h
        rw [append_plain, checkLimits] at h
        split at h
        · cases h
        · split at h
          · cases h
          · cases h
      · intro h
        cases h

/-- A return value stays until the log is replaced. -/
theorem isSome_returned_of_edit {s : Step} (h : s.edit log = .ok log')
    (hreturned : log.returned.isSome = true) (hs : ∀ entries, s ≠ .replace entries) :
    log'.returned.isSome = true := by
  cases s with
  | append entry =>
      have h : log.append entry = .ok log' := h
      rw [append_eq_logAfterReturn_iff.mpr hreturned] at h
      cases h
  | setReturn e =>
      obtain ⟨_, -, h⟩ := bind_eq_ok_iff.mp h
      obtain rfl := pure_eq_ok_iff.mp h
      rfl
  | replace entries => exact absurd rfl (hs entries)

/-- A return value that is set takes the place of an earlier one. -/
theorem setReturn_setReturn {e e' : EncodedValue} (h : log.setReturn e = .ok log') :
    log'.setReturn e' = log.setReturn e' := by
  obtain ⟨_, -, h⟩ := bind_eq_ok_iff.mp h
  obtain rfl := pure_eq_ok_iff.mp h
  rfl

end CallLog

/-! ## Changes of a call -/

namespace Transaction

open CallLog (Step Entry)

/-- Makes a change of the log of an application call. -/
def editLog (s : Step) : Amending Unit :=
  modifyCall fun c => return { c with log := ← s.edit c.log }

variable {header : Header} {c : AppCall} {log log' : CallLog} {s : Step}

/-- A change of the log of a call leaves everything else alone, and all of it when it fails. -/
theorem run_editLog (s : Step) (header : Header) (c : AppCall) :
    (editLog s).run ⟨header, .call c⟩ =
      match s.edit c.log with
      | .ok log => (.ok (), ⟨header, .call { c with log }⟩)
      | .error e => (.error e, ⟨header, .call c⟩) := by
  have hcall : call ⟨header, .call c⟩ = .ok c := rfl
  rw [editLog, modifyCall, run_get_bind, hcall]
  cases hedit : s.edit c.log with
  | ok log =>
      simp only [run_lift_bind, hedit]
      rfl
  | error e =>
      simp only [run_lift_bind, hedit]
      rfl

theorem yields_editLog_iff {u : Unit} {t : Transaction} :
    Yields (editLog s) ⟨header, .call c⟩ u t ↔
      ∃ log, s.edit c.log = .ok log ∧ t = ⟨header, .call { c with log }⟩ := by
  rw [Yields, run_editLog]
  cases s.edit c.log with
  | ok log =>
      rw [Prod.mk.injEq]
      simp [eq_comm]
  | error e =>
      rw [Prod.mk.injEq]
      simp

theorem run_editLog_eq_error_iff {e : Fault} {t : Transaction} :
    (editLog s).run ⟨header, .call c⟩ = (.error e, t) ↔
      s.edit c.log = .error e ∧ t = ⟨header, .call c⟩ := by
  rw [run_editLog]
  cases s.edit c.log with
  | ok log =>
      rw [Prod.mk.injEq]
      simp
  | error e =>
      rw [Prod.mk.injEq]
      simp [eq_comm]

/-- Makes changes one after the other, whether or not those before them have failed. -/
def editAll (steps : List Step) (t : Transaction) : List (Result Unit) × Transaction :=
  runAll (steps.map editLog) t

theorem editAll_cons_ok {steps : List Step} (h : s.edit c.log = .ok log) :
    editAll (s :: steps) ⟨header, .call c⟩
      = (.ok () :: (editAll steps ⟨header, .call { c with log }⟩).1,
          (editAll steps ⟨header, .call { c with log }⟩).2) := by
  have hrun := run_editLog s header c
  rw [h] at hrun
  simp only [editAll, List.map_cons, runAll, hrun]

theorem editAll_cons_error {steps : List Step} {e : Fault} (h : s.edit c.log = .error e) :
    editAll (s :: steps) ⟨header, .call c⟩
      = (.error e :: (editAll steps ⟨header, .call c⟩).1,
          (editAll steps ⟨header, .call c⟩).2) := by
  have hrun := run_editLog s header c
  rw [h] at hrun
  simp only [editAll, List.map_cons, runAll, hrun]

/-- Changes, of which some may fail, leave the entries that the others are meant to leave, and a
    log within the limits stays within them. -/
theorem exists_editAll (steps : List Step) (header : Header) (c : AppCall) :
    ∃ log : CallLog, (editAll steps ⟨header, .call c⟩).2 = ⟨header, .call { c with log }⟩ ∧
      log.origins
        = CallLog.written (steps.zip (editAll steps ⟨header, .call c⟩).1) c.log.origins ∧
      (c.log.Bounded → log.Bounded) := by
  induction steps generalizing c with
  | nil => exact ⟨c.log, rfl, rfl, id⟩
  | cons s steps ih =>
      cases hedit : s.edit c.log with
      | ok log =>
          obtain ⟨horigins, hbounded⟩ := CallLog.origins_of_edit hedit
          obtain ⟨log', hlog', hwritten, hstays⟩ := ih { c with log }
          rw [editAll_cons_ok hedit]
          refine ⟨log', hlog', ?_, fun _ => hstays hbounded⟩
          rw [hwritten, horigins]
          rfl
      | error e =>
          obtain ⟨log', hlog', hwritten, hstays⟩ := ih c
          rw [editAll_cons_error hedit]
          exact ⟨log', hlog', hwritten, hstays⟩

/-- While the log is not replaced, a return value stays. -/
theorem returned_stays {steps : List Step} (hreturned : c.log.returned.isSome = true)
    (hsteps : ∀ entries,
      (Step.replace entries, .ok ()) ∉ steps.zip (editAll steps ⟨header, .call c⟩).1) :
    ∃ log : CallLog, (editAll steps ⟨header, .call c⟩).2 = ⟨header, .call { c with log }⟩ ∧
      log.returned.isSome = true := by
  induction steps generalizing c with
  | nil => exact ⟨c.log, rfl, hreturned⟩
  | cons s steps ih =>
      cases hedit : s.edit c.log with
      | ok log =>
          rw [editAll_cons_ok hedit] at hsteps ⊢
          have hs : ∀ entries, s ≠ .replace entries := by
            rintro entries rfl
            exact hsteps entries List.mem_cons_self
          refine ih (CallLog.isSome_returned_of_edit hedit hreturned hs) ?_
          intro entries hmem
          exact hsteps entries (List.mem_cons_of_mem _ hmem)
      | error e =>
          rw [editAll_cons_error hedit] at hsteps ⊢
          refine ih hreturned ?_
          intro entries hmem
          exact hsteps entries (List.mem_cons_of_mem _ hmem)

/-- **LOG DISCIPLINE**: whatever changes are made of the log of a fresh call, and whichever of
    them fail, the log holds what the others have written, within the limits; only its last entry
    can be a return value.  While one is set nothing is appended, until the log is replaced, and
    another return value takes its place.  A change that fails changes nothing. -/
theorem log_discipline (header : Header) (c : AppCall) (steps : List Step) :
    let ran := editAll steps ⟨header, .call { c with log := {} }⟩
    let es := CallLog.written (steps.zip ran.1) []
    (∃ log : CallLog, ran.2 = ⟨header, .call { c with log }⟩ ∧
      log.entries = es.map Entry.bytes ∧
      (∀ e ∈ es.dropLast, e.isPlain = true) ∧
      log.count = log.entries.length ∧ log.count ≤ Limits.logEntries ∧
      CallLog.size log.entries ≤ Limits.logBytes ∧
      log.last? = log.entries.getLast?) ∧
    (∀ entry, (editLog (.append entry)).run ran.2 = (.error .logAfterReturn, ran.2) ↔
      ∃ e, es.getLast? = some (.returned e)) ∧
    (∀ e t later, Yields (editLog (.setReturn e)) ran.2 () t →
      (∀ entries, (Step.replace entries, .ok ()) ∉ later.zip (editAll later t).1) →
      ∀ entry, (editLog (.append entry)).run (editAll later t).2
        = (.error .logAfterReturn, (editAll later t).2)) ∧
    (∀ e e' t t', Yields (editLog (.setReturn e)) ran.2 () t →
      (Yields (editLog (.setReturn e')) t () t' ↔ Yields (editLog (.setReturn e')) ran.2 () t')) ∧
    (∀ s e t, (editLog s).run ran.2 = (.error e, t) → t = ran.2) := by
  intro ran es
  -- the entries and their origins follow from one run over all steps
  obtain ⟨log, hran, hes, hbounded⟩ := exists_editAll steps header { c with log := {} }
  have hes : es = log.origins := hes.symm
  have hran : ran.2 = ⟨header, .call { c with log }⟩ := hran
  have hlimits : log.Bounded := hbounded CallLog.bounded_empty
  -- behind a returned value nothing is appended
  have hrefused : ∀ {c : AppCall} {entry : Bytes}, c.log.returned.isSome = true →
      (editLog (.append entry)).run ⟨header, .call c⟩ = (.error .logAfterReturn, ⟨header, .call c⟩) :=
    fun h => run_editLog_eq_error_iff.mpr ⟨CallLog.append_eq_logAfterReturn_iff.mpr h, rfl⟩
  refine ⟨⟨log, hran, ?_, ?_, CallLog.count_eq log, hlimits.count, hlimits.size,
    CallLog.last?_eq log⟩, ?_, ?_, ?_, ?_⟩
  · rw [hes]
    exact CallLog.entries_eq log
  · rw [hes]
    intro e he
    exact CallLog.isPlain_of_mem_dropLast he
  · intro entry
    rw [hran, hes, run_editLog_eq_error_iff]
    simp only [and_true, ← CallLog.returned_eq_some_iff, ← Option.isSome_iff_exists]
    exact CallLog.append_eq_logAfterReturn_iff
  · intro e t later hset hlater entry
    rw [hran, yields_editLog_iff] at hset
    obtain ⟨log', hlog', rfl⟩ := hset
    obtain ⟨_, -, hset⟩ := bind_eq_ok_iff.mp hlog'
    obtain rfl := pure_eq_ok_iff.mp hset
    obtain ⟨log'', hlast, hreturned⟩ := returned_stays rfl hlater
    rw [hlast]
    exact hrefused hreturned
  · intro e e' t t' hset
    rw [hran, yields_editLog_iff] at hset ⊢
    obtain ⟨log', hlog', rfl⟩ := hset
    rw [yields_editLog_iff]
    -- the second value replaces the first, so the first leaves no trace
    have hagain : (Step.setReturn e').edit log' = (Step.setReturn e').edit log :=
      CallLog.setReturn_setReturn hlog'
    simp only [hagain]
  · intro s e t herror
    rw [hran, run_editLog_eq_error_iff] at herror
    rw [hran]
    exact herror.2

/-- Two return values behind 31 entries fill a log: the second is the last entry, and no other is
    appended to it. -/
theorem log_discipline_full :
    let first : EncodedValue := ⟨.byte, [7], .uint 7⟩
    let second : EncodedValue := ⟨.byte, [9], .uint 9⟩
    let steps := List.replicate 31 (Step.append [1]) ++ [.setReturn first, .setReturn second]
    let t := (editAll steps ⟨{}, .call {}⟩).2
    ∃ log : CallLog, t = ⟨{}, .call { log }⟩ ∧ log.count = 32 ∧ log.last? = some second.log ∧
      (editLog (.append [])).run t = (.error .logAfterReturn, t) := by
  intro first second steps t
  obtain ⟨⟨log, ht, hentries, -, hcount, -, -, hlast⟩, hrefused, -⟩ := log_discipline {} {} steps
  have hes : (CallLog.written (steps.zip (editAll steps ⟨{}, .call {}⟩).1) []).map Entry.bytes
      = List.replicate 31 [1] ++ [second.log] := by decide +kernel
  have hentries : log.entries = List.replicate 31 [1] ++ [second.log] := hentries.trans hes
  refine ⟨log, ht, ?_, ?_, (hrefused []).mpr ⟨second, by decide +kernel⟩⟩
  · rw [hcount, hentries]
    rfl
  · rw [hlast, hentries]
    rfl

end Transaction

end AvmSandbox
