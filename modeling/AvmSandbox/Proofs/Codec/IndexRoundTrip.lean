import AvmSandbox.Proofs.Codec.RoundTrip
import AvmSandbox.Transaction.Basic

/-! # Index round trip — encodings within an application call

    A call that lays its references out by index takes over the arrays that the
    encoding has left, so that every index in the bytes names its resource when
    they are decoded within the call.

    The check in front of a static array counts its elements with references by
    value, though.  Where by index they are shorter the array seems too long for
    its bytes, and its own encoding is refused.

    * `layout_setLayout`: the call keeps the arrays of the encoding;
    * `readable_index_iff`: the check is all that stands in the way;
    * `decode_embed_iff`: an encoding decodes to the canonical value exactly where
      the check does not object. -/

namespace AvmSandbox

open Encoding

namespace Transaction

/-- A call that encodes references by value has no arrays to lay them out in. -/
theorem layout_of_value {txn : Transaction} {c : AppCall} (hcall : txn.body = .call c)
    (hvalue : c.encoding = .value) : txn.layout = none := by
  simp [layout, call?, hcall, hvalue]

theorem layout_of_index {txn : Transaction} {c : AppCall} (hcall : txn.body = .call c)
    (hindex : c.encoding = .index) : txn.layout = some (c.references txn.header.sender) := by
  simp [layout, call?, hcall, hindex]

theorem setLayout_none (txn : Transaction) : txn.setLayout none = txn := by
  rw [setLayout]
  simp

/-- Encoding within a transaction runs within its layout, which the transaction takes over also
    when the encoding fails. -/
theorem run_embed {α : Type} (action : Encoding α) (txn : Transaction) :
    (embed action).run txn = ((action.run txn.layout).1,
      txn.setLayout (action.run txn.layout).2) := by
  rw [embed, Action.run_get_bind]
  rcases action.run txn.layout with ⟨_ | a, after⟩ <;> rfl

theorem embed_eq_ok_iff {α : Type} {action : Encoding α} {txn txn' : Transaction} {a : α} :
    (embed action).run txn = (.ok a, txn') ↔
      ∃ after, Yields action txn.layout a after ∧ txn' = txn.setLayout after := by
  constructor
  · intro h
    rw [run_embed] at h
    obtain ⟨hok, hleft⟩ := Prod.mk.inj h
    exact ⟨(action.run txn.layout).2, Prod.ext hok rfl, hleft.symm⟩
  · rintro ⟨after, h, rfl⟩
    have h : action.run txn.layout = (.ok a, after) := h
    rw [run_embed, h]

/-- The transaction keeps the arrays that an encoding within it has left. -/
theorem layout_setLayout {txn : Transaction} {after : Layout} (h : Grows txn.layout after) :
    (txn.setLayout after).layout = after := by
  obtain ⟨header, body⟩ := txn
  cases body with
  | call c =>
      cases henc : c.encoding with
      | index =>
          rw [layout_of_index rfl henc] at h
          cases h with
          | byIndex hgrows =>
              rename_i refs
              obtain ⟨sender, called, accounts, assets, apps⟩ := refs
              have hsender : sender = header.sender := hgrows.sender
              have hcalled : called = c.app := hgrows.called
              simp [setLayout, layout, call?, Call.setReferences, Call.references, henc, hsender,
                hcalled]
      | value =>
          rw [layout_of_value rfl henc] at h
          cases h
          exact layout_of_value rfl henc
  | _ =>
      have h : Grows none after := h
      cases h
      rfl

end Transaction

namespace Descriptor

/-! ## Where the check objects -/

/-- Whether a static array is empty or has elements that are as long by index as by value. -/
def SameWidthHere : Descriptor → Value → Prop
  | staticArray t n, _ => n = 0 ∨ t.length? true = t.length? false
  | _, _ => True

theorem known_index_of_sized {t : Descriptor}
    (h : t.isDynamic = false → ∃ n, t.fixedLength? = some n) : t.Known true := by
  cases hd : t.isDynamic with
  | true => exact Or.inl hd
  | false =>
      obtain ⟨a, ha⟩ := h hd
      obtain ⟨b, -, hb⟩ := length?_le ha
      exact Or.inr ⟨b, hb⟩

theorem guardSuits_index_iff {t : Descriptor} (v : Value) (hwf : t.WellFormedHere) :
    t.GuardSuits true ↔ t.SameWidthHere v := by
  cases t with
  | staticArray t n =>
      show (n ≤ 8 * Limits.box ∧ (n = 0 ∨ t.isBool = true ∨ t.isDynamic = true ∨
          t.fixedLength?.getD 0 ≤ (t.length? true).getD 0)) ↔
        (n = 0 ∨ t.length? true = t.length? false)
      have hbounded : n ≤ 8 * Limits.box := hwf.bounded
      rw [and_iff_right hbounded]
      refine or_congr_right ?_
      rcases t.placement with rfl | ⟨hb, hd⟩ | ⟨hb, hd⟩
      · exact iff_of_true (Or.inl rfl) (by rw [length?, length?])
      · exact iff_of_true (Or.inr (Or.inl hd))
          (by rw [length?_of_isDynamic _ hd, length?_of_isDynamic _ hd])
      · -- by index the element is not longer, so it suits the check when it is not shorter
        obtain ⟨a, ha⟩ := hwf.sized t (List.mem_singleton_self t) hd
        obtain ⟨b, hle, hlen⟩ := length?_le ha
        have ha' : t.length? false = some a := ha
        rw [hb, hd, ha, ha', hlen]
        simp only [Bool.false_eq_true, false_or, Option.getD_some, Option.some.injEq]
        omega
  | _ => exact Iff.rfl

/-- By index, the check in front of static arrays is all that can stop the reader. -/
theorem readable_index_iff {t : Descriptor} {v : Value} (hwf : t.WellFormed) :
    t.Readable true v ↔ Everywhere SameWidthHere t v := by
  induction t using Descriptor.inductOn generalizing v with
  | step t ih =>
      have hinside : (∀ c ∈ t.entries v, c.1.Readable true c.2) ↔
          ∀ c ∈ t.entries v, Everywhere SameWidthHere c.1 c.2 := by
        refine forall₂_congr fun c hc => ?_
        have hinner := mem_inner_of_mem_entries hc
        exact ih c.1 hinner (hwf.inside hinner)
      have hknown : ∀ c ∈ t.entries v, c.1.Known true := fun c hc =>
        known_index_of_sized (hwf.here.sized c.1 (mem_inner_of_mem_entries hc))
      rw [Readable, everywhere_iff, everywhere_iff, ReadableHere,
        guardSuits_index_iff v hwf.here, and_iff_left hknown]
      exact and_congr_right fun _ => hinside

/-! ## Canonical forms -/

theorem exists_canonicalRow {ts : List Descriptor} {items : List Value}
    (h : ∀ c ∈ ts.zip items, ∃ w, c.1.canonical c.2 = .ok w) :
    ∃ ws, canonicalRow ts items = .ok ws := by
  induction ts generalizing items with
  | nil => exact ⟨[], canonicalRow_nil items⟩
  | cons t ts ih =>
      cases items with
      | nil => exact ⟨[], by rw [canonicalRow] <;> first | rfl | simp⟩
      | cons v items =>
          rw [List.zip_cons_cons, List.forall_mem_cons] at h
          obtain ⟨w, hw⟩ := h.1
          obtain ⟨ws, hws⟩ := ih h.2
          exact ⟨w :: ws, canonicalRow_cons_eq_ok_iff.mpr ⟨w, ws, hw, hws, rfl⟩⟩

/-- Every value of the decoder's form has a canonical form. -/
theorem exists_canonical {t : Descriptor} {v : Value} (hv : t.HasForm v) :
    ∃ w, t.canonical v = .ok w := by
  induction t using Descriptor.inductOn generalizing v with
  | step t ih =>
      cases ht : t.isSequence with
      | false => exact ⟨v, canonical_leaf ht v⟩
      | true =>
          obtain ⟨items, hitems⟩ := (arityHere_iff ht hv.here.1).mp hv.here.2
          have hentries := entries_eq_zip hv.here.1 hitems
          have hall : ∀ c ∈ (t.rowTypes items.length).zip items, ∃ w, c.1.canonical c.2 = .ok w := by
            intro c hc
            rw [← hentries] at hc
            exact ih c.1 (mem_inner_of_mem_entries hc) (hv.inside hc)
          obtain ⟨ws, hws⟩ := exists_canonicalRow hall
          exact ⟨t.rowValue ws,
            (canonical_sequence_eq_ok_iff ht hv.here.1 hitems).mpr ⟨ws, hws, rfl⟩⟩

/-! ## Within a call -/

/-- **INDEX ROUND TRIP**: what was encoded within a call decodes within the call as it is left to
    the canonical value, and to nothing else, exactly when no static array has elements that are
    shorter by index. -/
theorem decode_embed_iff {txn txn' : Transaction} {call : AppCall} {t : Descriptor} {max : Nat}
    {v : Value} {bytes : Bytes} (hcall : txn.body = .call call) (hindex : call.encoding = .index)
    (hwf : t.WellFormed) (hv : t.HasVariants v)
    (h : (Transaction.embed (t.encodeWithin max v)).run txn = (.ok bytes, txn')) :
    ∃ w, t.canonical v = .ok w ∧
      ∀ u, txn'.decode .bare t bytes = .ok u ↔ Everywhere SameWidthHere t v ∧ u = w := by
  obtain ⟨after, hyields, rfl⟩ := Transaction.embed_eq_ok_iff.mp h
  obtain ⟨hyields, -⟩ := yields_encodeWithin_iff.mp hyields
  have hsome : after.isSome = true := by
    have hlayout : txn.layout = some (call.references txn.header.sender) := by
      simp [Transaction.layout, Transaction.call?, hcall, hindex]
    rw [(grows_encodeIn hyields).isSome_eq, hlayout]
    rfl
  have hform := hasForm_of_yields hv hyields
  obtain ⟨w, hw⟩ := exists_canonical hform
  refine ⟨w, hw, ?_⟩
  intro u
  show t.decodeIn (txn.setLayout after).layout bytes = .ok u ↔ _
  rw [Transaction.layout_setLayout (grows_encodeIn hyields),
    decodeIn_eq_ok_iff hwf.valid hform hyields (.refl after), hsome, readable_index_iff hwf, hw,
    Except.ok.injEq, eq_comm (a := w)]

/-- An account and two assets, one of them twice, are appended and found again. -/
theorem decode_embed_appended :
    let alice : Address := ⟨⟨List.replicate 32 1, rfl⟩⟩
    let call : AppCall := { app := 7, assets := [9] }
    let pair := tuple [account, dynamicArray asset]
    let given := Value.tuple [.account alice, .list [.asset 5, .asset 9, .asset 5]]
    let bytes : Bytes := [1, 0, 3, 0, 3, 1, 0, 1]
    let txn := Transaction.ofCall .zero call
    let txn' := Transaction.ofCall .zero { call with accounts := [alice], assets := [9, 5] }
    (Transaction.embed (pair.encodeWithin 8 given)).run txn = (.ok bytes, txn') ∧
      ∃ w, pair.canonical given = .ok w ∧
        ∀ u, txn'.decode .bare pair bytes = .ok u ↔
          Everywhere SameWidthHere pair given ∧ u = w := by
  intro alice call pair given bytes txn txn'
  have hassets : (dynamicArray asset).WellFormed :=
    wellFormed_dynamicArray (wellFormed_leaf rfl trivial) (by decide : asset.fixedLength? = some 8)
  have hwf : pair.WellFormed := by
    refine .intro ⟨⟨trivial, trivial⟩, trivial, ?_⟩ ?_
    · intro c hc hd
      rcases List.mem_pair.mp hc with rfl | rfl
      · exact ⟨32, by decide⟩
      · exact absurd hd (by decide)
    · intro c hc
      rcases List.mem_pair.mp hc with rfl | rfl
      · exact wellFormed_leaf rfl trivial
      · exact hassets
  have hv : pair.HasVariants given := by
    refine .intro trivial ?_
    intro c hc
    rcases List.mem_pair.mp hc with rfl | rfl
    · exact everywhere_leaf rfl trivial
    · refine .intro trivial ?_
      have hid : ∀ id, Everywhere VariantHere asset (.asset id) := fun _ => everywhere_leaf rfl trivial
      intro c hc
      obtain ⟨v, hv, rfl⟩ := List.mem_map.mp hc
      simp only [List.mem_cons, List.not_mem_nil, or_false] at hv
      rcases hv with rfl | rfl | rfl
      · exact hid 5
      · exact hid 9
      · exact hid 5
  have hencode : (Transaction.embed (pair.encodeWithin 8 given)).run txn = (.ok bytes, txn') := by
    with_unfolding_all rfl
  exact ⟨hencode, decode_embed_iff rfl rfl hwf hv hencode⟩

/-- **AN ARRAY OF REFERENCES IS REFUSED** by the call that has just written it: the index of an
    account takes one byte where the check asks for 32. -/
theorem decode_embed_refused :
    ¬∀ (txn txn' : Transaction) (call : AppCall) (t : Descriptor) (max : Nat) (v : Value)
        (bytes : Bytes), txn.body = .call call → call.encoding = .index → t.WellFormed →
      t.HasVariants v → (Transaction.embed (t.encodeWithin max v)).run txn = (.ok bytes, txn') →
      ∃ w, t.canonical v = .ok w ∧ txn'.decode .bare t bytes = .ok w := by
  intro hall
  have hwf : (staticArray account 1).WellFormed := by
    refine .intro ⟨⟨trivial, trivial⟩, (by decide : 1 ≤ 8 * Limits.box), ?_⟩ ?_
    · intro c hc _
      rw [List.mem_singleton.mp hc]
      exact ⟨32, by decide⟩
    · intro c hc
      rw [List.mem_singleton.mp hc]
      exact wellFormed_leaf rfl trivial
  have hv : (staticArray account 1).HasVariants (.list [.account .zero]) := by
    refine .intro trivial ?_
    intro c hc
    obtain ⟨v, hv, rfl⟩ := List.mem_map.mp hc
    rw [List.mem_singleton.mp hv]
    exact everywhere_leaf rfl trivial
  obtain ⟨w, -, hdecode⟩ := hall (Transaction.ofCall .zero {}) (Transaction.ofCall .zero {}) {}
    (staticArray account 1) 4096 (.list [.account .zero]) [0] rfl rfl hwf hv
    (by with_unfolding_all rfl)
  have hrefused : (Transaction.ofCall .zero {}).decode .bare (staticArray account 1) [0]
      = .error ((staticArray account 1).refusal .tooShort) := by with_unfolding_all rfl
  rw [hrefused] at hdecode
  cases hdecode

end Descriptor

end AvmSandbox
