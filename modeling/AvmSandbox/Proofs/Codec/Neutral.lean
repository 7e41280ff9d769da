import AvmSandbox.Proofs.Codec.Extent
import AvmSandbox.Proofs.Codec.IndexRoundTrip

/-! # Neutral encodings — what a transaction contributes to the codec

    The codec runs within the layout of a transaction and asks it for nothing
    but references.  A type without references at any depth is therefore written
    and read as if there were no transaction, and where references are written
    by value every type is.

    Both halves follow the encoder through a type once: a condition that holds of
    the steps that leave the layout alone and that sequences inherit holds of an
    encoding as soon as it holds of the references inside.

    * `Inherited` and `Inherited.encodeIn`: such conditions, and the induction;
    * `Neutral`: computations that the layout neither changes nor is changed by;
    * `NoReference`, `length?_of_noReference`, `decodeIn_of_noReference`: types
      without references have one length and are read in one way;
    * `ends_encodeIn`: even an encoding that fails only appends;
    * `embed_depends_on_references`: encoding and decoding within a call. -/

namespace AvmSandbox

open AvmSandbox.Action (Ends ends_bind_trans)

/-! ## Conditions on encodings -/

namespace Encoding

variable {α β : Type}

/-- Whether a condition holds of every step that leaves the layout alone, and of a sequence when
    it holds of its steps. -/
structure Inherited (P : (α : Type) → Encoding α → Prop) : Prop where
  lift : ∀ {α : Type} (r : Result α), P α (liftM r)
  bind : ∀ {α β : Type} {x : Encoding α} {f : α → Encoding β},
    P α x → (∀ a, P β (f a)) → P β (x >>= f)

namespace Inherited

variable {P : (α : Type) → Encoding α → Prop}

theorem pure (hP : Inherited P) (a : α) : P α (Pure.pure a) := hP.lift (.ok a)

theorem throw (hP : Inherited P) (e : Fault) : P α (throw e) := hP.lift (.error e)

/-- Steps behind one that leaves the layout alone. -/
theorem lift_bind (hP : Inherited P) (r : Result α) {f : α → Encoding β} (hf : ∀ a, P β (f a)) :
    P β (liftM r >>= f) := hP.bind (hP.lift r) hf

/-- Steps behind a check. -/
theorem checked (hP : Inherited P) {refused : Prop} [Decidable refused] {e : Fault}
    {x : Encoding α} (hx : P α x) :
    P α (if refused then (do throwThe Fault e; x) else x) := by
  split
  · exact hP.bind (hP.throw e) fun _ => hx
  · exact hx

variable {t : Descriptor} {ts : List Descriptor}

theorem partOf (hP : Inherited P) (ht : ∀ v, P Bytes (t.encodeIn v)) (v : Value) :
    P Part (Descriptor.partOf t t.encodeIn v) := by
  rw [Descriptor.partOf]
  split
  · exact hP.lift_bind _ fun b => hP.pure _
  · exact hP.bind (ht v) fun bytes => hP.pure _

/-- A row inherits what its components have, one after another. -/
theorem encodeRow (hP : Inherited P) (hts : ∀ t ∈ ts, ∀ v, P Bytes (t.encodeIn v))
    (items : List Value) : P (List Part) (Descriptor.encodeRow ts items) := by
  induction ts generalizing items with
  | nil =>
      rw [Descriptor.encodeRow]
      · exact hP.pure _
      · simp
  | cons t ts ih =>
      rw [List.forall_mem_cons] at hts
      cases items with
      | nil =>
          rw [Descriptor.encodeRow]
          · exact hP.pure _
          · simp
      | cons v items =>
          rw [Descriptor.encodeRow]
          refine hP.bind (hP.partOf hts.1 v) fun part => ?_
          exact hP.bind (ih hts.2 items) fun parts => hP.pure _

/-- A leaf takes its bytes from the value alone, unless it is a reference. -/
theorem leaf (hP : Inherited P) (ht : t.isSequence = false) (hr : t.isReference = false)
    (v : Value) : P Bytes (t.encodeIn v) := by
  cases t with
  | bool | uint _ | ufixed _ _ | byte | string | dynamicBytes =>
      rw [Descriptor.encodeIn]
      exact hP.lift_bind _ fun _ => hP.lift _
  | staticBytes n =>
      rw [Descriptor.encodeIn]
      exact hP.lift_bind _ fun content => hP.checked (hP.pure content)
  | address =>
      rw [Descriptor.encodeIn.eq_def]
      cases v with
      | address a => exact hP.pure _
      | account a => exact hP.pure _
      | bytes b =>
          dsimp only
          split
          · exact hP.pure _
          · exact hP.throw _
      | _ => exact hP.throw _
  | account | asset | application => cases hr
  | staticArray _ _ | dynamicArray _ | tuple _ | struct _ _ => cases ht

/-- **AN ENCODING INHERITS WHAT ITS REFERENCES HAVE**, by induction on the type. -/
theorem encodeIn (hP : Inherited P)
    (ht : Descriptor.Throughout (fun c => c.isReference = true → ∀ v, P Bytes (c.encodeIn v)) t)
    (v : Value) : P Bytes (t.encodeIn v) := by
  induction t using Descriptor.inductOn generalizing v with
  | step t ih =>
      have hinner : ∀ c ∈ t.inner, ∀ v, P Bytes (c.encodeIn v) := fun c hc v =>
        ih c hc (ht.inside hc) v
      cases hr : t.isReference with
      | true => exact ht.here hr v
      | false =>
          -- a sequence asks the layout for nothing itself, only its components do
          cases t with
          | staticArray t n =>
              rw [Descriptor.encodeIn]
              refine hP.lift_bind _ fun items => hP.checked ?_
              rw [← Descriptor.encodeRow_replicate]
              refine hP.bind (hP.encodeRow ?_ items) fun parts => hP.lift _
              intro c hc
              exact hinner c (List.mem_singleton.mpr (List.eq_of_mem_replicate hc))
          | dynamicArray t =>
              rw [Descriptor.encodeIn]
              refine hP.lift_bind _ fun items => ?_
              rw [← Descriptor.encodeRow_replicate]
              refine hP.bind (hP.encodeRow ?_ items) fun parts => ?_
              · intro c hc
                exact hinner c (List.mem_singleton.mpr (List.eq_of_mem_replicate hc))
              · exact hP.lift_bind _ fun body => hP.lift_bind _ fun count => hP.pure _
          | tuple ts =>
              rw [Descriptor.encodeIn]
              refine hP.lift_bind _ fun items => hP.checked ?_
              exact hP.bind (hP.encodeRow hinner items) fun parts => hP.lift _
          | struct a fs =>
              rw [Descriptor.encodeIn]
              refine hP.lift_bind _ fun items => ?_
              rw [Descriptor.encodeFields_eq]
              exact hP.bind (hP.encodeRow hinner items) fun parts => hP.lift _
          | _ => exact hP.leaf rfl hr v

/-- The bound on the length leaves the layout alone. -/
theorem encodeWithin (hP : Inherited P) {v : Value} (ht : P Bytes (t.encodeIn v)) (max : Nat) :
    P Bytes (t.encodeWithin max v) := by
  rw [Descriptor.encodeWithin]
  exact hP.bind ht fun bytes => hP.checked (hP.pure bytes)

/-- So does the native value that is kept beside the bytes. -/
theorem encoded (hP : Inherited P) {v : Value} (ht : P Bytes (t.encodeIn v)) (max : Nat) :
    P EncodedValue (EncodedValue.encodeWithin max t v) := by
  rw [EncodedValue.encodeWithin]
  refine hP.bind (hP.encodeWithin ht max) fun bytes => ?_
  exact hP.lift_bind _ fun native => hP.pure _

end Inherited

/-! ## Types without references -/

/-- Whether a computation is the same in every layout and leaves it as it was. -/
def Neutral (action : Encoding α) : Prop := ∀ layout, action.run layout = (action.plain, layout)

theorem inherited_neutral : Inherited fun _ action => Neutral action := by
  refine ⟨fun r layout => rfl, ?_⟩
  intro α β x f hx hf layout
  have hplain : (x >>= f).plain = x.plain >>= fun a => (f a).plain := by
    rw [plain, Action.run_bind, hx none]
    cases x.plain with
    | error e => rfl
    | ok a => rfl
  rw [hplain, Action.run_bind, hx layout]
  cases x.plain with
  | error e => rfl
  | ok a => exact hf a layout

end Encoding

namespace Descriptor

variable {t : Descriptor}

/-- A type without references at any depth. -/
def NoReference : Descriptor → Prop := Throughout fun t => t.isReference = false

/-- Without references there is nothing to ask the transaction for. -/
theorem neutral_encodeIn (ht : t.NoReference) (v : Value) : (t.encodeIn v).Neutral := by
  refine Encoding.inherited_neutral.encodeIn (ht.mono fun c hc hr => ?_) v
  rw [hc] at hr
  cases hr

/-- Without references the two ways to lay them out take the same bytes. -/
theorem length?_of_noReference (ht : t.NoReference) (indexed : Bool) :
    t.length? indexed = t.length? false := by
  induction t using Descriptor.inductOn with
  | step t ih =>
      have hwidths : widths indexed t.inner = widths false t.inner := by
        rw [widths_eq, widths_eq]
        refine List.map_congr_left fun c hc => ?_
        rw [ih c hc (ht.inside hc)]
      cases t with
      | staticArray t n =>
          have ht' := ih t (List.mem_singleton_self t) (ht.inside (List.mem_singleton_self t))
          rw [length?, length?, ht']
      | dynamicArray t => rw [length?, length?]
      | tuple ts =>
          rw [length?, length?]
          exact congrArg (rowLength 0) hwidths
      | struct a fs =>
          rw [length?, length?, fieldWidths_eq, fieldWidths_eq]
          exact congrArg (rowLength 0) hwidths
      | _ =>
          rw [length?_leaf rfl, ht.here, Bool.and_false]
          rfl

/-- **WITHOUT REFERENCES THERE IS ONE WAY TO READ**, by induction on the type. -/
theorem decodeIn_of_noReference (ht : t.NoReference) (layout : Layout) (bytes : Bytes) :
    t.decodeIn layout bytes = t.decode bytes := by
  induction t using Descriptor.inductOn generalizing bytes with
  | step t ih =>
      -- the reader takes the widths from the layout, but here they are those by value
      have hslot : ∀ c ∈ t.inner, slotOf layout.isSome c (c.decodeIn layout)
          = slotOf false c (c.decodeIn none) := by
        intro c hc
        have hread : c.decodeIn layout = c.decodeIn none :=
          funext fun bytes => ih c hc (ht.inside hc) bytes
        rw [hread, slotOf, slotOf, length?_of_noReference (ht.inside hc)]
      have hrow : ∀ ts, (∀ c ∈ ts, c ∈ t.inner) → rowSlots layout ts = rowSlots none ts := by
        intro ts hts
        induction ts with
        | nil => rw [rowSlots, rowSlots]
        | cons c ts ihts =>
            rw [List.forall_mem_cons] at hts
            rw [rowSlots, rowSlots, hslot c hts.1, ihts hts.2]
            rfl
      rw [decode]
      cases hseq : t.isSequence with
      | false => exact decodeIn_leaf_eq hseq ht.here layout bytes
      | true =>
          cases t with
          | staticArray t n =>
              simp only [decodeIn, hslot t (List.mem_singleton_self t)]
              rfl
          | dynamicArray t =>
              simp only [decodeIn, hslot t (List.mem_singleton_self t)]
              rfl
          | tuple ts => rw [decodeIn, decodeIn, hrow ts fun c hc => hc]
          | struct a fs =>
              rw [decodeIn, decodeIn, fieldSlots_eq, fieldSlots_eq,
                hrow (fs.map Prod.snd) fun c hc => hc]
          | _ => cases hseq

end Descriptor

/-! ## Encodings that fail -/

namespace References

/-- Looking an account up appends it at most, also when its index does not fit a byte. -/
theorem ends_accountIndex (address : Address) (refs : References) :
    Ends (accountIndex address) refs refs.Grows := by
  rw [accountIndex, Action.ends_get_bind]
  split
  · exact .refl refs
  · exact ⟨rfl, rfl, (position_spec address refs.accounts).1, List.prefix_refl _,
      List.prefix_refl _⟩

theorem ends_assetIndex (id : UInt64) (refs : References) :
    Ends (assetIndex id) refs refs.Grows := by
  rw [assetIndex, Action.ends_get_bind]
  exact ⟨rfl, rfl, List.prefix_refl _, (position_spec id refs.assets).1, List.prefix_refl _⟩

theorem ends_applicationIndex (id : UInt64) (refs : References) :
    Ends (applicationIndex id) refs refs.Grows := by
  rw [applicationIndex, Action.ends_get_bind]
  split
  · exact .refl refs
  · exact ⟨rfl, rfl, List.prefix_refl _, List.prefix_refl _, (position_spec id refs.apps).1⟩

end References

namespace Encoding

variable {α : Type}

/-- Whether a computation only appends, wherever it ends. -/
def Appends (action : Encoding α) : Prop := ∀ layout, Ends action layout (Grows layout)

theorem inherited_appends : Inherited fun _ action => Appends action := by
  refine ⟨fun r layout => Grows.refl layout, ?_⟩
  intro α β x f hx hf layout
  exact ends_bind_trans (R := Grows) Grows.trans (hx layout) hf

theorem appends_reference {index : Referencing UInt8} {byValue : Bytes}
    (hindex : ∀ refs, Ends index refs refs.Grows) : Appends (reference index byValue) := by
  intro layout
  rw [reference, Action.ends_get_bind]
  cases layout with
  | none => exact Grows.refl none
  | some refs =>
      have hgrows : refs.Grows (index.run refs).2 := hindex refs
      rcases hrun : index.run refs with ⟨result, after⟩
      rw [hrun] at hgrows
      simp only [hrun, Action.ends_set_bind]
      cases result with
      | ok i => exact .byIndex hgrows
      | error e => exact .byIndex hgrows

end Encoding

namespace Descriptor

open Encoding

/-- **NOTHING BUT APPENDING**: wherever an encoding ends, the arrays have at most grown. -/
theorem appends_encodeIn (t : Descriptor) (v : Value) : (t.encodeIn v).Appends := by
  -- of the leaves only references reach for the arrays
  have hleaf : ∀ c : Descriptor, c.isReference = true → ∀ v, (c.encodeIn v).Appends := by
    intro c hr v
    cases c with
    | account =>
        rw [encodeIn]
        exact inherited_appends.lift_bind _ fun a => appends_reference (References.ends_accountIndex a)
    | asset =>
        rw [encodeIn]
        exact inherited_appends.lift_bind _ fun id => appends_reference (References.ends_assetIndex id)
    | application =>
        rw [encodeIn]
        exact inherited_appends.lift_bind _ fun id =>
          appends_reference (References.ends_applicationIndex id)
    | _ => cases hr
  refine inherited_appends.encodeIn ?_ v
  induction t using Descriptor.inductOn with
  | step t ih => exact .intro (hleaf t) ih

end Descriptor

/-! ## Within a call -/

/-- The call with resources appended to its arrays. -/
def Call.append {τ : Type} (call : Call τ) (accounts : List Address) (assets apps : List UInt64) :
    Call τ :=
  { call with
    accounts := call.accounts ++ accounts
    assets := call.assets ++ assets
    apps := call.apps ++ apps }

namespace Transaction

open Encoding

variable {txn : Transaction} {call : AppCall} {α : Type} {action : Encoding α}

/-- A transaction that takes over its own arrays stays as it was. -/
theorem setLayout_layout (txn : Transaction) : txn.setLayout txn.layout = txn := by
  obtain ⟨header, body⟩ := txn
  cases body with
  | call c =>
      cases hencoding : c.encoding with
      | index =>
          rw [layout_of_index rfl hencoding]
          rfl
      | value => rw [layout_of_value rfl hencoding, setLayout_none]
  | _ => rfl

/-- A neutral encoding runs within a transaction as without one. -/
theorem run_embed_of_neutral (h : action.Neutral) (txn : Transaction) :
    (embed action).run txn = (action.plain, txn) := by
  rw [run_embed, h txn.layout, setLayout_layout]

/-- By value an encoding runs within a transaction as without one. -/
theorem run_embed_of_layout_none (happends : action.Appends) (hnone : txn.layout = none) :
    (embed action).run txn = (action.plain, txn) := by
  have hgrows : Grows none (action.run none).2 := happends none
  have hafter : (action.run none).2 = txn.layout := by
    rw [hnone]
    -- where there is no layout nothing can have grown
    cases h : (action.run none).2 with
    | none => rfl
    | some refs =>
        rw [h] at hgrows
        cases hgrows
  rw [run_embed, hnone, hafter, setLayout_layout]
  rfl

/-- An encoding that only appends changes nothing but the arrays of the call. -/
theorem exists_append_of_embed (happends : action.Appends) (hcall : txn.body = .call call)
    (hindex : call.encoding = .index) :
    ∃ accounts assets apps, ((embed action).run txn).2
      = { txn with body := .call (call.append accounts assets apps) } := by
  have hgrows := happends (some (call.references txn.header.sender))
  rw [run_embed, layout_of_index hcall hindex]
  rcases hrun : action.run (some (call.references txn.header.sender)) with ⟨result, after⟩
  rw [Ends, hrun] at hgrows
  cases hgrows with
  | byIndex hgrows =>
      obtain ⟨accounts, haccounts⟩ := hgrows.accounts
      obtain ⟨assets, hassets⟩ := hgrows.assets
      obtain ⟨apps, happs⟩ := hgrows.apps
      refine ⟨accounts, assets, apps, ?_⟩
      simp only [setLayout, hcall, Call.setReferences, Call.append, ← haccounts, ← hassets, ← happs]
      rfl

/-- **THE CODEC DEPENDS ON A CALL FOR REFERENCES ONLY.**  For a type without references, or where
    the call lays references out by value, encoding and decoding within the call answer as they do
    without one, and the call stays as it was.  By index an encoding, whether or not it fails,
    changes nothing of the call but appends to its arrays. -/
theorem embed_depends_on_references (hcall : txn.body = .call call) (t : Descriptor) (max : Nat)
    (v : Value) (framing : Framing) (buffer : Bytes) :
    (t.NoReference ∨ call.encoding = .value →
      (embed (t.encodeWithin max v)).run txn = (t.encodeUpTo max v, txn) ∧
      (embed (EncodedValue.encodeWithin max t v)).run txn
        = (EncodedValue.encodeUpTo max t v, txn) ∧
      txn.decode framing t buffer
        = (EncodedValue.decode framing t buffer).map EncodedValue.native) ∧
    (call.encoding = .index →
      (∃ accounts assets apps, ((embed (t.encodeWithin max v)).run txn).2
        = { txn with body := .call (call.append accounts assets apps) }) ∧
      ∃ accounts assets apps, ((embed (EncodedValue.encodeWithin max t v)).run txn).2
        = { txn with body := .call (call.append accounts assets apps) }) := by
  have hbytes : (t.encodeWithin max v).Appends :=
    inherited_appends.encodeWithin (t.appends_encodeIn v) max
  have hencoded : (EncodedValue.encodeWithin max t v).Appends :=
    inherited_appends.encoded (t.appends_encodeIn v) max
  have hdecode : framing.body buffer >>= t.decode
      = (EncodedValue.decode framing t buffer).map EncodedValue.native := by
    rw [EncodedValue.decode]
    cases framing.body buffer with
    | error e => rfl
    | ok bytes =>
        simp only [ok_bind]
        cases t.decode bytes with
        | error e => rfl
        | ok v => rfl
  refine ⟨?_, fun hindex => ?_⟩
  -- without references the layout is never asked, and by value there is none
  · rintro (hnone | hvalue)
    · refine ⟨run_embed_of_neutral ?_ txn, run_embed_of_neutral ?_ txn, ?_⟩
      · exact inherited_neutral.encodeWithin (t.neutral_encodeIn hnone v) max
      · exact inherited_neutral.encoded (t.neutral_encodeIn hnone v) max
      · rw [decode, funext fun bytes => Descriptor.decodeIn_of_noReference hnone txn.layout bytes]
        exact hdecode
    · have hlayout := layout_of_value hcall hvalue
      refine ⟨run_embed_of_layout_none hbytes hlayout, run_embed_of_layout_none hencoded hlayout, ?_⟩
      rw [decode, hlayout]
      exact hdecode
  · exact ⟨exists_append_of_embed hbytes hcall hindex, exists_append_of_embed hencoded hcall hindex⟩

/-- A call that lays out by index encodes a number as usual, and keeps the account in front of a
    number that does not fit. -/
theorem embed_depends_on_references_failing :
    let alice : Address := ⟨⟨List.replicate 32 1, rfl⟩⟩
    let txn := ofCall .zero { app := 7 }
    let pair := Descriptor.tuple [.account, .byte]
    let given := Value.tuple [.account alice, .uint 300]
    txn.body = .call { app := 7 } ∧ Descriptor.byte.NoReference ∧
      (embed (Descriptor.byte.encodeWithin 1 (.uint 5))).run txn = (.ok [5], txn) ∧
      (embed (pair.encodeWithin 8 given)).run txn
        = (.error (.overflow 255), ofCall .zero { app := 7, accounts := [alice] }) ∧
      ∃ accounts assets apps, ((embed (pair.encodeWithin 8 given)).run txn).2
        = { txn with body := .call (Call.append { app := 7 } accounts assets apps) } := by
  intro alice txn pair given
  have hnone : Descriptor.byte.NoReference := .of_leaf rfl rfl
  have hcall : txn.body = .call { app := 7 } := rfl
  have hbyte := (embed_depends_on_references hcall .byte 1 (.uint 5) .bare []).1 (Or.inl hnone)
  have hpair := (embed_depends_on_references hcall pair 8 given .bare []).2 rfl
  have hplain : Descriptor.byte.encodeUpTo 1 (.uint 5) = .ok [5] := by decide +kernel
  refine ⟨rfl, hnone, ?_, ?_, hpair.1⟩
  · rw [← hplain]
    exact hbyte.1
  · with_unfolding_all rfl

end Transaction

end AvmSandbox
