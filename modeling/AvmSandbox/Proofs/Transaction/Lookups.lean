import AvmSandbox.Transaction.Basic
import AvmSandbox.Proofs.Codec.Neutral

/-! # Lookups — indexes that were handed out stay valid

    Resources are looked up in the arrays of an application call in any order,
    and again and again.  A lookup appends at most, also when the index it comes
    to does not fit a byte, and what it has found stays the first of its like in
    all longer arrays.  So each lookup of a row comes to what it would come to
    behind the row.

    * `Resource` and `Transaction.indexOf`: what can be looked up;
    * `position_of_longer` and `References.run_indexOf_later`: a lookup that is
      made again;
    * `Transaction.run_indexOf` and `Transaction.exists_runAll_indexOf`: one lookup and
      a row of them on a call;
    * `Transaction.indexes_stay_valid`: what the indexes of a row are good for. -/

namespace AvmSandbox

/-- A resource that a call names by index. -/
inductive Resource where
  | account (address : Address)
  | asset (id : UInt64)
  | application (id : UInt64)
  deriving DecidableEq

namespace Resource

/-- The array that a resource belongs to. -/
inductive Kind where
  | account
  | asset
  | application
  deriving DecidableEq

def kind : Resource → Kind
  | account _ => .account
  | asset _ => .asset
  | application _ => .application

end Resource

/-! ## In the arrays -/

namespace References

open AvmSandbox.Action

/-- The index of a resource. -/
def indexOf : Resource → Referencing UInt8
  | .account address => accountIndex address
  | .asset id => assetIndex id
  | .application id => applicationIndex id

/-- The resource of a kind at an index. -/
def resourceAt (refs : References) (index : UInt8) : Resource.Kind → Result Resource
  | .account => (refs.accountAt index).map .account
  | .asset => (refs.assetAt index).map .asset
  | .application => (refs.applicationAt index).map .application

/-- What was found or appended is at its position in every longer array. -/
theorem position_of_longer {α : Type} [DecidableEq α] {x : α} {xs ys : List α}
    (h : (position x xs).2 <+: ys) : position x ys = ((position x xs).1, ys) := by
  have hidx : ys.idxOf? x = some (position x xs).1 := by
    obtain ⟨more, rfl⟩ := h
    rw [position]
    cases hx : xs.idxOf? x with
    | some i =>
        rw [List.idxOf?] at hx ⊢
        simp only [List.findIdx?_append, hx, Option.some_or]
    | none =>
        rw [List.idxOf?] at hx ⊢
        simp [List.findIdx?_append, List.findIdx?_cons, hx]
  rw [position, hidx]

variable {r : Resource} {refs later : References} {i : UInt8}

theorem ends_indexOf (r : Resource) (refs : References) : Ends (indexOf r) refs refs.Grows := by
  cases r with
  | account address => exact ends_accountIndex address refs
  | asset id => exact ends_assetIndex id refs
  | application id => exact ends_applicationIndex id refs

/-- A lookup that is made again, when the arrays may have grown, comes to what it came to
    before and appends nothing. -/
theorem run_indexOf_later (h : ((indexOf r).run refs).2.Grows later) :
    (indexOf r).run later = (((indexOf r).run refs).1, later) := by
  cases r with
  | account address =>
      simp only [indexOf, run_accountIndex] at h ⊢
      by_cases hsender : address = refs.sender
      · rw [if_pos hsender] at h ⊢
        rw [if_pos (hsender.trans h.sender.symm)]
      · rw [if_neg hsender] at h ⊢
        have hother : address ≠ later.sender := by
          rw [h.sender]
          exact hsender
        rw [if_neg hother, position_of_longer h.accounts]
  | asset id =>
      simp only [indexOf, run_assetIndex] at h ⊢
      rw [position_of_longer h.assets]
  | application id =>
      simp only [indexOf, run_applicationIndex] at h ⊢
      by_cases hcalled : id = refs.called
      · rw [if_pos hcalled] at h ⊢
        rw [if_pos (hcalled.trans h.called.symm)]
      · rw [if_neg hcalled] at h ⊢
        have hother : id ≠ later.called := by
          rw [h.called]
          exact hcalled
        rw [if_neg hother, position_of_longer h.apps]

/-- The index of a resource resolves to it, also when the arrays grow. -/
theorem resourceAt_of_indexOf {after : References} (h : (indexOf r).run refs = (.ok i, after))
    (hlater : after.Grows later) : later.resourceAt i r.kind = .ok r := by
  cases r with
  | account address =>
      rw [Resource.kind, resourceAt, (accountAt_accountIndex h).2 later hlater]
      rfl
  | asset id =>
      rw [Resource.kind, resourceAt, (assetAt_assetIndex h).2 later hlater]
      rfl
  | application id =>
      rw [Resource.kind, resourceAt, (applicationAt_applicationIndex h).2 later hlater]
      rfl

end References

/-! ## In a call -/

namespace Transaction

/-- The index of a resource. -/
def indexOf : Resource → Amending UInt8
  | .account address => accountIndex address
  | .asset id => assetIndex id
  | .application id => applicationIndex id

/-- The resource of a kind at an index. -/
def resourceAt (t : Transaction) (index : UInt8) : Resource.Kind → Result Resource
  | .account => (t.accountAt index).map .account
  | .asset => (t.assetAt index).map .asset
  | .application => (t.applicationAt index).map .application

variable {header : Header} {c : AppCall}

/-- Arrays that have grown from those of a call are taken over as they are. -/
theorem references_setReferences {refs : References}
    (h : (c.references header.sender).Grows refs) :
    (c.setReferences refs).references header.sender = refs := by
  obtain ⟨sender, called, accounts, assets, apps⟩ := refs
  cases h.sender
  cases h.called
  rfl

theorem run_lookUp (index : Referencing UInt8) :
    (lookUp index).run ⟨header, .call c⟩
      = ((index.run (c.references header.sender)).1,
          ⟨header, .call (c.setReferences (index.run (c.references header.sender)).2)⟩) := by
  rw [lookUp, Action.run_get_bind]
  rcases hrun : index.run (c.references header.sender) with ⟨result, refs⟩
  simp only [hrun, Action.run_set_bind]
  cases result with
  | ok i => rfl
  | error e => rfl

/-- A lookup on a call is one in its arrays. -/
theorem run_indexOf (r : Resource) :
    (indexOf r).run ⟨header, .call c⟩
      = (((References.indexOf r).run (c.references header.sender)).1,
          ⟨header, .call (c.setReferences
            ((References.indexOf r).run (c.references header.sender)).2)⟩) := by
  cases r with
  | account address =>
      rw [indexOf, accountIndex, Action.run_get_bind]
      by_cases hsender : address = header.sender
      · simp only [References.indexOf, References.run_accountIndex, Call.references]
        rw [if_pos hsender, if_pos hsender]
        rfl
      · rw [if_neg hsender]
        exact run_lookUp (References.accountIndex address)
  | asset id => exact run_lookUp (References.assetIndex id)
  | application id => exact run_lookUp (References.applicationIndex id)

/-- What an index resolves to in a call is in its arrays. -/
theorem resourceAt_call (i : UInt8) (kind : Resource.Kind) :
    resourceAt ⟨header, .call c⟩ i kind = (c.references header.sender).resourceAt i kind := by
  cases kind with
  | account =>
      rw [resourceAt, accountAt]
      by_cases hi : i = 0
      · rw [hi]
        rfl
      · rw [if_neg hi]
        rfl
  | asset => rfl
  | application => rfl

/-! ## One lookup after the other -/

variable {rs : List Resource}

/-- Lookups leave the call with arrays that have grown, in which each of them would come to what
    it has come to, without appending anything. -/
theorem exists_runAll_indexOf (rs : List Resource) (header : Header) (c : AppCall) :
    ∃ refs : References, (c.references header.sender).Grows refs ∧
      Action.runAll (rs.map indexOf) ⟨header, .call c⟩
        = (rs.map fun r => ((References.indexOf r).run refs).1,
            ⟨header, .call (c.setReferences refs)⟩) ∧
      ∀ r ∈ rs, ((References.indexOf r).run refs).2 = refs := by
  induction rs generalizing c with
  | nil => exact ⟨c.references header.sender, .refl _, rfl, by simp⟩
  | cons r rs ih =>
      have hfirst := References.ends_indexOf r (c.references header.sender)
      rw [Action.Ends] at hfirst
      rcases hrun : (References.indexOf r).run (c.references header.sender) with ⟨result, middle⟩
      rw [hrun] at hfirst
      obtain ⟨refs, hgrows, hothers, hsettled⟩ := ih (c.setReferences middle)
      rw [references_setReferences hfirst] at hgrows
      -- The first lookup is settled in the arrays behind all the others.
      have hlater := References.run_indexOf_later (r := r) (by rw [hrun]; exact hgrows)
      rw [hrun] at hlater
      refine ⟨refs, hfirst.trans hgrows, ?_, ?_⟩
      · simp only [List.map_cons, Action.runAll, run_indexOf, hrun, hothers, hlater]
        rfl
      · intro s hs
        rcases List.mem_cons.mp hs with rfl | hs
        · rw [hlater]
        · exact hsettled s hs

/-- **INDEXES STAY VALID**: lookups on a call, in any order and whether or not they succeed, only
    append to its arrays.  In the call they leave, every index that was handed out resolves to
    its resource, which has no other index and shares it with no resource of its kind; looking
    it up again changes nothing.  Index 0 is the sender, and the called application. -/
theorem indexes_stay_valid (header : Header) (c : AppCall) (rs : List Resource) :
    let results := (Action.runAll (rs.map indexOf) ⟨header, .call c⟩).1
    let t := (Action.runAll (rs.map indexOf) ⟨header, .call c⟩).2
    results.length = rs.length ∧
      (∃ refs : References, t = ⟨header, .call (c.setReferences refs)⟩ ∧
        c.accounts <+: refs.accounts ∧ c.assets <+: refs.assets ∧ c.apps <+: refs.apps) ∧
      (∀ (n : Nat) (r : Resource) (i : UInt8), rs[n]? = some r → results[n]? = some (.ok i) →
        t.resourceAt i r.kind = .ok r ∧ (indexOf r).run t = (.ok i, t)) ∧
      (∀ (m n : Nat) (r : Resource), rs[m]? = some r → rs[n]? = some r →
        results[m]? = results[n]?) ∧
      (∀ (m n : Nat) (r s : Resource) (i : UInt8), rs[m]? = some r → rs[n]? = some s →
        r.kind = s.kind → results[m]? = some (.ok i) → results[n]? = some (.ok i) → r = s) ∧
      t.accountAt 0 = .ok header.sender ∧ t.applicationAt 0 = .ok c.app := by
  intro results t
  -- every lookup answers as it would against the arrays at the end
  obtain ⟨refs, hgrows, hall, hsettled⟩ := exists_runAll_indexOf rs header c
  have hresults : results = rs.map fun r => ((References.indexOf r).run refs).1 :=
    congrArg Prod.fst hall
  have ht : t = ⟨header, .call (c.setReferences refs)⟩ := congrArg Prod.snd hall
  have hat : ∀ {n : Nat} {r : Resource}, rs[n]? = some r →
      results[n]? = some ((References.indexOf r).run refs).1 := by
    intro n r hr
    rw [hresults, List.getElem?_map, hr]
    rfl
  have hvalid : ∀ (n : Nat) (r : Resource) (i : UInt8), rs[n]? = some r →
      results[n]? = some (.ok i) → t.resourceAt i r.kind = .ok r ∧ (indexOf r).run t = (.ok i, t) := by
    intro n r i hr hi
    have hrun : (References.indexOf r).run refs = (.ok i, refs) := by
      rw [hat hr, Option.some.injEq] at hi
      exact Prod.ext hi (hsettled r (List.mem_of_getElem? hr))
    rw [ht, resourceAt_call, run_indexOf, references_setReferences hgrows, hrun]
    exact ⟨References.resourceAt_of_indexOf hrun (.refl refs), rfl⟩
  refine ⟨?_, ⟨refs, ht, hgrows.accounts, hgrows.assets, hgrows.apps⟩, hvalid, ?_, ?_, ?_, ?_⟩
  · rw [hresults, List.length_map]
  · intro m n r hm hn
    rw [hat hm, hat hn]
  · intro m n r s i hr hs hkind hi hj
    obtain ⟨hresolves, -⟩ := hvalid m r i hr hi
    obtain ⟨hresolves', -⟩ := hvalid n s i hs hj
    rw [hkind, hresolves', Except.ok.injEq] at hresolves
    exact hresolves.symm
  · rw [ht]
    rfl
  · rw [ht]
    rfl

/-- Where the assets of a call have all indexes, one more is listed and gets none. -/
theorem indexes_stay_valid_full :
    let c : AppCall := { app := 7, assets := (List.range 256).map UInt64.ofNat }
    let rs : List Resource := [.asset 900, .asset 255, .application 7, .application 8, .asset 900]
    let results := (Action.runAll (rs.map indexOf) ⟨{}, .call c⟩).1
    let t := (Action.runAll (rs.map indexOf) ⟨{}, .call c⟩).2
    results = [.error (.unresolvedReference (.indexTooLarge 256)), .ok 255, .ok 0, .ok 1,
        .error (.unresolvedReference (.indexTooLarge 256))] ∧
      t.resourceAt 255 .asset = .ok (.asset 255) ∧
      t.resourceAt 1 .application = .ok (.application 8) := by
  intro c rs results t
  have hresults : results = [.error (.unresolvedReference (.indexTooLarge 256)), .ok 255, .ok 0,
      .ok 1, .error (.unresolvedReference (.indexTooLarge 256))] := by decide +kernel
  obtain ⟨-, -, hvalid, -⟩ := indexes_stay_valid {} c rs
  refine ⟨hresults, (hvalid 1 (.asset 255) 255 rfl ?_).1, (hvalid 3 (.application 8) 1 rfl ?_).1⟩
  · exact congrArg (·[1]?) hresults
  · exact congrArg (·[3]?) hresults

end Transaction

end AvmSandbox
