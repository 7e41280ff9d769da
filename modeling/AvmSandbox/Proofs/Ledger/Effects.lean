import AvmSandbox.Proofs.Ledger.Records
import AvmSandbox.Submission

/-! # Effects — what an inner transaction does to a ledger

    The effect of a transaction depends on its kind, on an id that is zero or
    not, and on the action of a call.  Whatever else is proved of effects needs
    only to know which operation of the ledger was made and what has come of the
    transaction, so the cases are told apart once, here.

    * `Call.Leaves`: calls that end the opt-in of their sender;
    * `Effect`: the cases;
    * `effect_of_applyEffects`: there are no others. -/

namespace AvmSandbox

/-- Whether a call is one that ends the opt-in of its sender. -/
def Call.Leaves {τ : Type} (c : Call τ) : Prop :=
  c.app ≠ 0 ∧ (c.onCompletion = .closeOut ∨ c.onCompletion = .clearState)

/-- What comes of a transaction and of the ledger that it is applied to. -/
inductive Effect (t : Transaction) (l : Ledger) : Transaction → Ledger → Prop where
  | createAsset {c : AssetConfig} {id : UInt64} {l' : Ledger} (hbody : t.body = .assetConfig c)
      (h : l.createAsset t.header.sender c.params = .ok (id, l')) :
      Effect t l { t with body := .assetConfig { c with createdAsset := id } } l'
  | configureAsset {c : AssetConfig} {l' : Ledger} (hbody : t.body = .assetConfig c)
      (h : l.configureAsset c.asset c.params = .ok l') : Effect t l t l'
  | optInAsset {c : AssetTransfer} {l' : Ledger} (hbody : t.body = .assetTransfer c)
      (h : l.optInAsset c.asset t.header.sender = .ok l') : Effect t l t l'
  | createApplication {c : AppCall} {id : UInt64} {l' : Ledger} (hbody : t.body = .call c)
      (hnew : c.app = 0) (h : l.createApplication t.header.sender c.program = .ok (id, l')) :
      Effect t l { t with body := .call { c with createdApp := id } } l'
  | optIn {c : AppCall} {l' : Ledger} (hbody : t.body = .call c) (hstays : ¬c.Leaves)
      (h : l.optIn c.app t.header.sender = .ok l') : Effect t l t l'
  | closeOut {c : AppCall} {l' : Ledger} (hbody : t.body = .call c) (hleaves : c.Leaves)
      (h : l.closeOut c.app t.header.sender = .ok l') : Effect t l t l'
  /-- There is no opt-in to end. -/
  | absent {c : AppCall} (hbody : t.body = .call c) (hleaves : c.Leaves)
      (h : l.isOptedIn c.app t.header.sender = .ok false) : Effect t l t l
  | nothing (hstays : ∀ c, t.body = .call c → ¬c.Leaves) : Effect t l t l

/-- **THE EFFECTS OF A TRANSACTION** are those of one operation, or there are none. -/
theorem effect_of_applyEffects {t t' : Transaction} {l l' : Ledger}
    (hrun : applyEffects t l = .ok (t', l')) : Effect t l t' l' := by
  obtain ⟨header, body⟩ := t
  rw [applyEffects] at hrun
  cases body with
  | assetConfig c =>
      by_cases hnew : c.asset = 0
      · obtain ⟨⟨id, after⟩, hcreate, hrun⟩ := bind_eq_ok_iff.mp ((if_pos hnew).symm.trans hrun)
        cases hrun
        exact .createAsset rfl hcreate
      · obtain ⟨after, hconfigure, hrun⟩ := bind_eq_ok_iff.mp ((if_neg hnew).symm.trans hrun)
        cases hrun
        exact .configureAsset rfl hconfigure
  | assetTransfer c =>
      by_cases hopt : c.amount = 0 ∧ c.receiver = header.sender
      · obtain ⟨after, hopted, hrun⟩ := bind_eq_ok_iff.mp ((if_pos hopt).symm.trans hrun)
        cases hrun
        exact .optInAsset rfl hopted
      · cases (if_neg hopt).symm.trans hrun
        exact .nothing (by simp)
  | call c =>
      by_cases hnew : c.app = 0
      · obtain ⟨⟨id, after⟩, hcreate, hrun⟩ := bind_eq_ok_iff.mp ((if_pos hnew).symm.trans hrun)
        cases hrun
        exact .createApplication rfl hnew hcreate
      · -- the action decides what becomes of the sender's opt-in
        replace hrun := (if_neg hnew).symm.trans hrun
        cases hcompletion : c.onCompletion <;> simp only [hcompletion] at hrun
        case optIn =>
          obtain ⟨after, hopted, hrun⟩ := bind_eq_ok_iff.mp hrun
          cases hrun
          exact .optIn rfl (by simp [Call.Leaves, hcompletion]) hopted
        case closeOut | clearState =>
          have hleaves : c.Leaves := ⟨hnew, by simp [hcompletion]⟩
          obtain ⟨opted, hopted, hrun⟩ := bind_eq_ok_iff.mp hrun
          cases opted with
          | false =>
              cases hrun
              exact .absent rfl hleaves hopted
          | true =>
              obtain ⟨after, hclosed, hrun⟩ := bind_eq_ok_iff.mp hrun
              cases hrun
              exact .closeOut rfl hleaves hclosed
        case noOp | updateApplication | deleteApplication =>
          obtain ⟨found, -, hrun⟩ := bind_eq_ok_iff.mp hrun
          cases hrun
          refine .nothing fun c hbody => ?_
          cases hbody
          simp [Call.Leaves, hcompletion]
  | payment _ | keyRegistration _ | assetFreeze _ =>
      cases hrun
      exact .nothing (by simp)

end AvmSandbox
