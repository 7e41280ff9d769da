import AvmSandbox.Proofs.Codec.ReadBack

/-! # Round trip — an encoding decodes, and encodes to itself again

    The encoder takes values in many forms: a list of numbers for a byte string,
    a tuple for a struct, fields in another order.  Whatever it takes stands for
    one value in canonical form, and that is what comes back.

    * `settle`: the canonical value behind an encoding;
    * `hasForm_of_yields`: an encoding that succeeds has checked the arities;
    * `decode_encodeUpTo`: the round trip with references by value;
    * `encodeUpTo_eq_iff`: which values have one encoding. -/

namespace AvmSandbox

namespace Descriptor

open Encoding

/-! ## The value behind an encoding -/

/-- Rows of components that can be settled can be settled. -/
theorem RowYields.settle {ts : List Descriptor} {items : List Value} {before after : Layout}
    {parts : List Part}
    (hsettle : ∀ t ∈ ts, ∀ {v before after bytes}, Yields (t.encodeIn v) before bytes after →
      ∃ u, t.HasForm u ∧ t.canonical u = .ok u ∧ Yields (t.encodeIn u) before bytes after)
    (h : RowYields ts items before parts after) :
    ∃ us, us.length = ts.length ∧ (∀ c ∈ ts.zip us, c.1.HasForm c.2) ∧
      canonicalRow ts us = .ok us ∧ RowYields ts us before parts after := by
  induction h with
  | nil => exact ⟨[], rfl, by simp, canonicalRow_nil [], .nil⟩
  | bit b _ ih =>
      rw [List.forall_mem_cons] at hsettle
      obtain ⟨us, hus, hforms, hcanonical, hrow⟩ := ih hsettle.2
      refine ⟨.bool b :: us, congrArg Nat.succ hus, ?_, ?_, .bit b hrow⟩
      · rw [List.zip_cons_cons, List.forall_mem_cons]
        exact ⟨everywhere_leaf rfl ⟨trivial, trivial⟩, hforms⟩
      · exact canonicalRow_cons_eq_ok_iff.mpr ⟨_, us, canonical_leaf rfl _, hcanonical, rfl⟩
  | whole hb hbytes _ ih =>
      rw [List.forall_mem_cons] at hsettle
      obtain ⟨us, hus, hforms, hcanonical, hrow⟩ := ih hsettle.2
      obtain ⟨u, hform, hu, hbytes⟩ := hsettle.1 hbytes
      refine ⟨u :: us, congrArg Nat.succ hus, ?_, ?_, .whole hb hbytes hrow⟩
      · rw [List.zip_cons_cons, List.forall_mem_cons]
        exact ⟨hform, hforms⟩
      · exact canonicalRow_cons_eq_ok_iff.mpr ⟨u, us, hu, hcanonical, rfl⟩

/-- A row of values makes a value of its sequence. -/
theorem hasForm_rowValue {t : Descriptor} {us : List Value} (ht : t.isSequence = true)
    (hitems : t.rowItems (t.rowValue us) = .ok us)
    (hforms : ∀ c ∈ (t.rowTypes us.length).zip us, c.1.HasForm c.2) :
    t.HasForm (t.rowValue us) := by
  have hvariant := variantHere_rowValue ht us
  refine .intro ⟨hvariant, (arityHere_iff ht hvariant).mpr ⟨us, hitems⟩⟩ ?_
  rw [entries_eq_zip hvariant hitems]
  exact hforms

/-- The components of a sequence settle one by one, and make up a value again in the order of the
    type. -/
theorem settle_row {t : Descriptor} {items : List Value} {before after : Layout}
    {parts : List Part} (ht : t.isSequence = true) (hnames : t.NamesDistinct)
    (htakes : t.TakesCount items.length)
    (hsettle : ∀ c ∈ t.inner, ∀ {v before after bytes}, Yields (c.encodeIn v) before bytes after →
      ∃ u, c.HasForm u ∧ c.canonical u = .ok u ∧ Yields (c.encodeIn u) before bytes after)
    (h : RowYields (t.rowTypes items.length) items before parts after) :
    ∃ us, us.length = items.length ∧ t.rowItems (t.rowValue us) = .ok us ∧
      t.HasForm (t.rowValue us) ∧ t.canonical (t.rowValue us) = .ok (t.rowValue us) ∧
      RowYields (t.rowTypes items.length) us before parts after := by
  obtain ⟨us, hus, hforms, hcanonical, hyields⟩ :=
    h.settle fun c hc _ _ _ _ => hsettle c (mem_inner_of_mem_rowTypes hc)
  rw [length_rowTypes ht htakes] at hus
  rw [← hus] at htakes hforms hcanonical
  have hback := rowItems_rowValue ht hnames htakes
  have hform := hasForm_rowValue ht hback hforms
  exact ⟨us, hus, hback, hform,
    (canonical_sequence_eq_ok_iff ht hform.here.1 hback).mpr ⟨us, hcanonical, rfl⟩, hyields⟩

/-- Whatever is encoded stands for a canonical value with the same encoding. -/
theorem settle {t : Descriptor} {v : Value} {before after : Layout} {bytes : Bytes}
    (hvalid : t.Valid) (h : Yields (t.encodeIn v) before bytes after) :
    ∃ u, t.HasForm u ∧ t.canonical u = .ok u ∧ Yields (t.encodeIn u) before bytes after := by
  induction t using Descriptor.inductOn generalizing v before after bytes with
  | step t ih =>
      cases ht : t.isSequence with
      | false =>
          obtain ⟨u, hvariant, harity, hu⟩ := settle_leaf ht h
          exact ⟨u, everywhere_leaf ht ⟨hvariant, harity⟩, canonical_leaf ht u, hu⟩
      | true =>
          obtain ⟨items, parts, body, count, hitems, hparts, hbody, hcount, rfl⟩ :=
            (yields_encodeIn_sequence ht).mp h
          obtain ⟨us, hus, hback, hform, hcanonical, hyields⟩ :=
            settle_row ht hvalid.here.names (takesCount_of_rowItems hitems)
              (fun c hc _ _ _ _ hbytes => ih c hc (hvalid.inside hc) hbytes) hparts
          rw [← hus] at hyields hcount
          exact ⟨t.rowValue us, hform, hcanonical, (yields_encodeIn_sequence ht).mpr
            ⟨us, parts, body, count, hback, hyields, hbody, hcount, rfl⟩⟩

/-! ## Arities -/

/-- Each component of a row that is encoded is encoded by itself. -/
theorem RowYields.yields_of_mem {ts : List Descriptor} {items : List Value}
    {before after : Layout} {parts : List Part} {c : Descriptor × Value}
    (hc : c ∈ ts.zip items) (h : RowYields ts items before parts after) :
    ∃ before bytes after, Yields (c.1.encodeIn c.2) before bytes after := by
  induction h with
  | nil => cases hc
  | @bit _ _ before _ _ b _ ih =>
      rw [List.zip_cons_cons, List.mem_cons] at hc
      rcases hc with rfl | hc
      · have hleaf := @yields_encodeIn_leaf bool (.bool b) before before
          (bool.leafBytes (.bool b)) rfl rfl trivial trivial
        exact ⟨before, _, before, hleaf.mpr ⟨trivial, rfl, rfl⟩⟩
      · exact ih hc
  | whole _ hbytes _ ih =>
      rw [List.zip_cons_cons, List.mem_cons] at hc
      rcases hc with rfl | hc
      · exact ⟨_, _, _, hbytes⟩
      · exact ih hc

/-- What is encoded has the arity its type asks for. -/
theorem hasForm_of_yields {t : Descriptor} {v : Value} {before after : Layout} {bytes : Bytes}
    (hv : t.HasVariants v) (h : Yields (t.encodeIn v) before bytes after) : t.HasForm v := by
  induction t using Descriptor.inductOn generalizing v before after bytes with
  | step t ih =>
      cases ht : t.isSequence with
      | false => exact everywhere_leaf ht ⟨hv.here, arityHere_leaf ht hv.here h⟩
      | true =>
          obtain ⟨items, parts, body, count, hitems, hparts, -⟩ :=
            (yields_encodeIn_sequence ht).mp h
          have hentries := entries_eq_zip hv.here hitems
          refine .intro ⟨hv.here, (arityHere_iff ht hv.here).mpr ⟨items, hitems⟩⟩ ?_
          intro c hc
          have hmem : c ∈ (t.rowTypes items.length).zip items := hentries ▸ hc
          obtain ⟨before, bytes, after, hbytes⟩ := hparts.yields_of_mem hmem
          exact ih c.1 (mem_inner_of_mem_entries hc) (hv.inside hc) hbytes

/-! ## References by value -/

/-- An encoding under a bound is one that keeps to it. -/
theorem yields_encodeWithin_iff {t : Descriptor} {max : Nat} {v : Value} {before after : Layout}
    {bytes : Bytes} :
    Yields (t.encodeWithin max v) before bytes after ↔
      Yields (t.encodeIn v) before bytes after ∧ bytes.length ≤ max := by
  rw [encodeWithin, yields_bind]
  simp only [yields_unless, yields_pure, Nat.not_lt]
  constructor
  · rintro ⟨bytes, after, h, hle, rfl, rfl⟩
    exact ⟨h, hle⟩
  · rintro ⟨h, hle⟩
    exact ⟨bytes, after, h, hle, rfl, rfl⟩

/-- Encoding with references by value succeeds within the empty layout and leaves it. -/
theorem encodeUpTo_eq_ok_iff {t : Descriptor} {max : Nat} {v : Value} {bytes : Bytes} :
    t.encodeUpTo max v = .ok bytes ↔
      Yields (t.encodeIn v) none bytes none ∧ bytes.length ≤ max := by
  constructor
  · intro h
    have hyields : Yields (t.encodeWithin max v) none bytes ((t.encodeWithin max v).run none).2 :=
      Prod.ext h rfl
    rw [yields_encodeWithin_iff] at hyields
    obtain ⟨hyields, hle⟩ := hyields
    cases hafter : ((t.encodeWithin max v).run none).2 with
    | none =>
        rw [hafter] at hyields
        exact ⟨hyields, hle⟩
    | some refs =>
        rw [hafter] at hyields
        cases grows_encodeIn hyields
  · intro h
    exact congrArg Prod.fst (yields_encodeWithin_iff.mpr h)

/-- The reader gets through every encoding of a well-formed type with references by value. -/
theorem readable_of_wellFormed {t : Descriptor} (hwf : t.WellFormed) (v : Value) :
    t.Readable false v := by
  induction t using Descriptor.inductOn generalizing v with
  | step t ih =>
      refine .intro ⟨?_, ?_⟩ ?_
      · cases t with
        | staticArray t n =>
            exact ⟨hwf.here.bounded, Or.inr (Or.inr (Or.inr (Nat.le_refl _)))⟩
        | _ => trivial
      · intro c hc
        cases hd : c.1.isDynamic with
        | true => exact Or.inl hd
        | false => exact Or.inr (hwf.here.sized c.1 (mem_inner_of_mem_entries hc) hd)
      · intro c hc
        have hinner := mem_inner_of_mem_entries hc
        exact ih c.1 hinner (hwf.inside hinner) c.2

/-- Whatever was encoded decodes to a value that is encoded alike, and to its canonical form if it
    had the variants that decoding produces. -/
theorem exists_decode_of_yields {t : Descriptor} {v : Value} {bytes : Bytes} (hwf : t.WellFormed)
    (h : Yields (t.encodeIn v) none bytes none) :
    ∃ w, t.decode bytes = .ok w ∧ Yields (t.encodeIn w) none bytes none ∧
      (t.HasVariants v → t.canonical v = .ok w) := by
  obtain ⟨w, hform, hcanonical, hagain⟩ := settle hwf.valid h
  have hdecode : t.decode bytes = .ok w :=
    (decodeIn_eq_ok_iff hwf.valid hform hagain .byValue).mpr
      ⟨readable_of_wellFormed hwf w, hcanonical⟩
  refine ⟨w, hdecode, hagain, fun hvariants => ?_⟩
  have hv := hasForm_of_yields hvariants h
  exact ((decodeIn_eq_ok_iff hwf.valid hv h .byValue).mp hdecode).2

theorem exists_decode_of_encodeUpTo {t : Descriptor} {max : Nat} {v : Value} {bytes : Bytes}
    (hwf : t.WellFormed) (h : t.encodeUpTo max v = .ok bytes) :
    ∃ w, t.decode bytes = .ok w ∧ t.encodeUpTo max w = .ok bytes ∧
      (t.HasVariants v → t.canonical v = .ok w) := by
  obtain ⟨hyields, hle⟩ := encodeUpTo_eq_ok_iff.mp h
  obtain ⟨w, hdecode, hagain, hcanonical⟩ := exists_decode_of_yields hwf hyields
  exact ⟨w, hdecode, encodeUpTo_eq_ok_iff.mpr ⟨hagain, hle⟩, hcanonical⟩

theorem body_returnLog (bytes : Bytes) : Framing.logged.body (returnLog bytes) = .ok bytes := rfl

/-- **ROUND TRIP** with references by value: whatever was encoded decodes, bare or as a logged
    return value, and encodes to the same bytes again.  If the value had the variants that decoding
    produces it comes back in canonical form. -/
theorem decode_encodeUpTo {t : Descriptor} {max : Nat} {v : Value} {bytes : Bytes}
    (hwf : t.WellFormed) (h : t.encodeUpTo max v = .ok bytes) :
    ∃ w, t.decode bytes = .ok w ∧
      (Framing.logged.body (returnLog bytes) >>= t.decode) = .ok w ∧
      t.encodeUpTo max w = .ok bytes ∧
      (t.HasVariants v → t.canonical v = .ok w) := by
  obtain ⟨w, hdecode, hagain, hcanonical⟩ := exists_decode_of_encodeUpTo hwf h
  refine ⟨w, hdecode, ?_, hagain, hcanonical⟩
  rw [body_returnLog]
  exact hdecode

/-- A struct whose fields are given in another order, and one more, comes back in order. -/
theorem decode_encodeUpTo_reordered :
    let order := struct "Order" [("open", bool), ("limits", dynamicArray (uint 16))]
    let given := Value.struct [("note", .uint 7), ("limits", .list [.uint 1, .uint 258]),
      ("open", .bool true)]
    let bytes : Bytes := [0x80, 0, 3, 0, 2, 0, 1, 1, 2]
    order.WellFormed ∧ order.encodeUpTo 9 given = .ok bytes ∧
      ∃ w, order.decode bytes = .ok w ∧
        (Framing.logged.body (returnLog bytes) >>= order.decode) = .ok w ∧
        order.encodeUpTo 9 w = .ok bytes ∧
        (order.HasVariants given → order.canonical given = .ok w) := by
  intro order given bytes
  have hbool : bool.WellFormed := wellFormed_leaf rfl trivial
  have huint : (uint 16).WellFormed := wellFormed_leaf rfl ⟨by decide, by decide, rfl⟩
  have hlimits : (dynamicArray (uint 16)).WellFormed :=
    wellFormed_dynamicArray huint (by decide : (uint 16).fixedLength? = some 2)
  have hwf : order.WellFormed := by
    refine .intro ⟨⟨trivial, ?_⟩, trivial, ?_⟩ ?_
    · show (List.map Prod.fst [("open", bool), ("limits", dynamicArray (uint 16))]).Nodup
      decide
    · intro c hc hd
      rcases List.mem_pair.mp hc with rfl | rfl
      · exact ⟨1, by decide⟩
      · exact absurd hd (by decide)
    · intro c hc
      rcases List.mem_pair.mp hc with rfl | rfl
      · exact hbool
      · exact hlimits
  have hencode : order.encodeUpTo 9 given = .ok bytes := by decide +kernel
  exact ⟨hwf, hencode, decode_encodeUpTo hwf hencode⟩

/-! ## Equal encodings -/

/-- What is encoded decodes as its canonical form, which has the same encoding. -/
theorem exists_canonical_of_encodeUpTo {t : Descriptor} {max : Nat} {v : Value} {bytes : Bytes}
    (hwf : t.WellFormed) (hv : t.HasVariants v) (h : t.encodeUpTo max v = .ok bytes) :
    ∃ u, t.canonical v = .ok u ∧ t.decode bytes = .ok u ∧ t.encodeUpTo max u = .ok bytes := by
  obtain ⟨u, hdecode, hagain, hcanonical⟩ := exists_decode_of_encodeUpTo hwf h
  exact ⟨u, hcanonical hv, hdecode, hagain⟩

/-- **ENCODINGS ARE THE SAME** exactly when the canonical forms are. -/
theorem encodeUpTo_eq_iff {t : Descriptor} {max : Nat} {v w : Value} {bytes bytes' : Bytes}
    (hwf : t.WellFormed) (hv : t.HasVariants v) (hw : t.HasVariants w)
    (h : t.encodeUpTo max v = .ok bytes) (h' : t.encodeUpTo max w = .ok bytes') :
    bytes = bytes' ↔ t.canonical v = t.canonical w := by
  obtain ⟨u, hcanonical, hdecode, hagain⟩ := exists_canonical_of_encodeUpTo hwf hv h
  obtain ⟨u', hcanonical', hdecode', hagain'⟩ := exists_canonical_of_encodeUpTo hwf hw h'
  rw [hcanonical, hcanonical']
  constructor
  · rintro rfl
    rw [← hdecode, ← hdecode']
  · intro hsame
    cases hsame
    exact Except.ok.inj (hagain.symm.trans hagain')

end Descriptor

end AvmSandbox
