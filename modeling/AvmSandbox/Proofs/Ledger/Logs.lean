import AvmSandbox.Proofs.Chain.Submission
import AvmSandbox.Proofs.Ledger.Effects

/-! # Logs of applications — who writes them

    Only an entry that is added to the log of an application changes a log.  New
    applications get ids that no application had, so the logs that there were
    stay under their ids.

    * `Ledger.KeepsLogs`: the logs that there were are as before;
    * `keepsLogs_applyEffects`, `keepsLogs_applyAll`: inner transactions;
    * `log?_appendLog`: an added entry. -/

namespace AvmSandbox

namespace Ledger

variable {l l' l'' : Ledger} {id : UInt64} {x : Address}

/-- The log of an application, if there is one. -/
def log? (l : Ledger) (id : UInt64) : Option (List Bytes) :=
  (l.applications.get? id).map Application.logs

/-- An application that is there has a log. -/
theorem log?_eq_some_iff {logs : List Bytes} :
    l.log? id = some logs ↔ ∃ app, l.application id = .ok app ∧ app.logs = logs := by
  rw [log?, Option.map_eq_some_iff]
  simp only [application_eq_ok_iff]

/-- Whether all applications that there were have the log that they had. -/
structure KeepsLogs (l l' : Ledger) : Prop where
  nextAppId : l.nextAppId ≤ l'.nextAppId
  logs : ∀ id, id < l.nextAppId → l'.log? id = l.log? id

theorem KeepsLogs.refl (l : Ledger) : l.KeepsLogs l := ⟨UInt64.le_refl _, fun _ _ => rfl⟩

theorem KeepsLogs.trans (h : l.KeepsLogs l') (h' : l'.KeepsLogs l'') : l.KeepsLogs l'' where
  nextAppId := UInt64.le_trans h.nextAppId h'.nextAppId
  logs := by
    intro id hid
    rw [h'.logs id (UInt64.lt_of_lt_of_le hid h.nextAppId), h.logs id hid]

/-! ## Steps that write no log -/

/-- Logs are kept where applications are. -/
theorem keepsLogs_of_same (happs : l'.applications = l.applications)
    (hnext : l'.nextAppId = l.nextAppId) : l.KeepsLogs l' where
  nextAppId := by
    rw [hnext]
    exact UInt64.le_refl _
  logs := fun id _ => by rw [log?, happs, log?]

/-- Another record of an application with the same log leaves every log as it was. -/
theorem log?_withApplication {app app' : Application} (happ : l.application id = .ok app)
    (hlogs : app'.logs = app.logs) (other : UInt64) :
    (l.withApplication id app').log? other = l.log? other := by
  rw [log?, get?_withApplication, log?]
  split
  · obtain rfl : other = id := ‹_›
    rw [application_eq_ok_iff.mp happ, Option.map_some, Option.map_some, hlogs]
  · rfl

theorem keepsLogs_withApplication {app app' : Application} (happ : l.application id = .ok app)
    (hlogs : app'.logs = app.logs) : l.KeepsLogs (l.withApplication id app') where
  nextAppId := UInt64.le_refl _
  logs := fun other _ => log?_withApplication happ hlogs other

/-- A change of an application that is not one of its log keeps all logs. -/
theorem keepsLogs_modifyApplication {f : Application → Application}
    (hf : ∀ app, (f app).logs = app.logs) (h : l.modifyApplication id f = .ok l') :
    l.KeepsLogs l' := by
  obtain ⟨app, happ, h⟩ := bind_eq_ok_iff.mp h
  obtain rfl := pure_eq_ok_iff.mp h
  exact keepsLogs_withApplication happ (hf app)

/-- Marking an application as being created leaves every log as it was. -/
theorem log?_of_setCreating {value : Bool} (h : l.setCreating id value = .ok l')
    (other : UInt64) : l'.log? other = l.log? other := by
  obtain ⟨app, happ, h⟩ := bind_eq_ok_iff.mp h
  obtain rfl := pure_eq_ok_iff.mp h
  have hlogs : ({ app with isCreating := value } : Application).logs = app.logs := rfl
  exact log?_withApplication happ hlogs other

theorem keepsLogs_setCreating {value : Bool} (h : l.setCreating id value = .ok l') :
    l.KeepsLogs l' :=
  keepsLogs_modifyApplication (f := fun app => { app with isCreating := value }) (fun _ => rfl) h

/-- The id of a new application is that of none before. -/
theorem keepsLogs_createApplication {creator : Address} {program : Program}
    (h : l.createApplication creator program = .ok (id, l')) : l.KeepsLogs l' := by
  obtain ⟨rfl, next, pages, hnext, -, rfl⟩ := of_createApplication h
  refine ⟨UInt64.le_of_lt (lt_of_nextId hnext), fun other hother => ?_⟩
  have hne : other ≠ l.nextAppId := by
    rintro rfl
    exact UInt64.lt_irrefl _ hother
  show ((l.applications.insert l.nextAppId _).get? other).map Application.logs = l.log? other
  rw [Table.get?_insert, if_neg hne, log?]

/-- A new asset touches no application. -/
theorem keepsLogs_createAsset {creator : Address} {params : AssetParams}
    (h : l.createAsset creator params = .ok (id, l')) : l.KeepsLogs l' := by
  obtain ⟨-, next, -, rfl⟩ := of_createAsset h
  exact keepsLogs_of_same rfl rfl

/-- An opt-in writes to the local state of an application and to an account. -/
theorem keepsLogs_optIn (h : l.optIn id x = .ok l') : l.KeepsLogs l' := by
  obtain ⟨app, happ, h⟩ := bind_eq_ok_iff.mp h
  split at h
  · obtain rfl := pure_eq_ok_iff.mp h
    exact .refl _
  · obtain rfl := pure_eq_ok_iff.mp h
    have hlocals : l.KeepsLogs (l.withApplication id { app with locals := app.locals.insert x {} }) :=
      keepsLogs_withApplication happ rfl
    exact hlocals.trans (keepsLogs_of_same rfl rfl)

/-- So does the end of an opt-in. -/
theorem keepsLogs_closeOut (h : l.closeOut id x = .ok l') : l.KeepsLogs l' := by
  obtain ⟨app, happ, -, -, rfl⟩ := closeOut_eq_ok_iff.mp h
  have hlocals : l.KeepsLogs (l.withApplication id { app with locals := app.locals.erase x }) :=
    keepsLogs_withApplication (application_eq_ok_iff.mpr happ) rfl
  exact hlocals.trans (keepsLogs_of_same rfl rfl)

/-- **AN INNER TRANSACTION WRITES NO LOG**, whatever it does. -/
theorem keepsLogs_applyEffects {t t' : Transaction} (h : applyEffects t l = .ok (t', l')) :
    l.KeepsLogs l' := by
  cases effect_of_applyEffects h with
  | createAsset _ hcreate => exact keepsLogs_createAsset hcreate
  | configureAsset _ hconfigure =>
      obtain ⟨a, -, hconfigure⟩ := bind_eq_ok_iff.mp hconfigure
      obtain rfl := pure_eq_ok_iff.mp hconfigure
      exact keepsLogs_of_same rfl rfl
  | optInAsset _ hopted =>
      obtain ⟨a, -, hopted⟩ := bind_eq_ok_iff.mp hopted
      obtain rfl := pure_eq_ok_iff.mp hopted
      exact keepsLogs_of_same rfl rfl
  | createApplication _ _ hcreate => exact keepsLogs_createApplication hcreate
  | optIn _ _ hopted => exact keepsLogs_optIn hopted
  | closeOut _ _ hclosed => exact keepsLogs_closeOut hclosed
  | absent _ _ _ | nothing _ => exact .refl _

/-- Inner transactions one after the other write no log, by induction on them. -/
theorem keepsLogs_applyAll {ts : List Transaction} (h : applyAll ts l = .ok l') :
    l.KeepsLogs l' := by
  induction ts generalizing l with
  | nil =>
      cases h
      exact .refl _
  | cons t ts ih =>
      obtain ⟨⟨t', after⟩, heffects, h⟩ := bind_eq_ok_iff.mp h
      exact (keepsLogs_applyEffects heffects).trans (ih h)

/-! ## Entries -/

/-- An entry is added to the log of an application that there is, and no other log changes. -/
theorem log?_of_appendLog {entry : Bytes} (h : l.appendLog id entry = .ok l') :
    l'.nextAppId = l.nextAppId ∧ ∀ other, l'.log? other =
      if other = id then (l.log? id).map (· ++ [entry]) else l.log? other := by
  obtain ⟨app, happ, h⟩ := bind_eq_ok_iff.mp h
  obtain rfl := pure_eq_ok_iff.mp h
  refine ⟨rfl, fun other => ?_⟩
  show ((l.withApplication id _).applications.get? other).map Application.logs = _
  rw [get?_withApplication]
  split
  · rw [log?, application_eq_ok_iff.mp happ]
    rfl
  · rfl

/-- An application that has a log can be changed. -/
theorem exists_modifyApplication {f : Application → Application} {logs : List Bytes}
    (h : l.log? id = some logs) : ∃ l', l.modifyApplication id f = .ok l' := by
  obtain ⟨app, happ, -⟩ := log?_eq_some_iff.mp h
  exact ⟨_, bind_eq_ok_iff.mpr ⟨app, happ, rfl⟩⟩

end Ledger

end AvmSandbox
