import AvmSandbox.Proofs.Codec.Extent

/-! # Reading back — what decoding makes of an encoding

    What was encoded is decoded within the arrays that the encoding has left, or
    within later ones.  The result is the canonical form of the value, if there
    is a result at all: the reader has to know the lengths of the static
    components it passes, and refuses a static array before it looks at it when
    the array seems too long for its bytes.

    * `Readable` says where the reader gets through;
    * `decodeIn_eq_ok_iff`: an encoding decodes exactly when it is readable, and
      then to the canonical value. -/

namespace AvmSandbox

namespace Descriptor

open Encoding

/-! ## What can be read -/

/-- Whether a component can be passed over: it is dynamic or has a length. -/
def Known (indexed : Bool) (t : Descriptor) : Prop :=
  t.isDynamic = true ∨ ∃ n, t.length? indexed = some n

/-- Whether the check in front of a static array passes on its own encoding.  The check counts
    with references by value, which may be more than there are bytes. -/
def GuardSuits (indexed : Bool) : Descriptor → Prop
  | staticArray t n => n ≤ 8 * Limits.box ∧
      (n = 0 ∨ t.isBool = true ∨ t.isDynamic = true ∨
        t.fixedLength?.getD 0 ≤ (t.length? indexed).getD 0)
  | _ => True

/-- Whether a sequence can be gone through. -/
def ReadableHere (indexed : Bool) (t : Descriptor) (v : Value) : Prop :=
  t.GuardSuits indexed ∧ ∀ c ∈ t.entries v, c.1.Known indexed

/-- Whether the reader gets through the encoding of a value, at every position. -/
def Readable (indexed : Bool) : Descriptor → Value → Prop := Everywhere (ReadableHere indexed)

theorem readable_leaf {t : Descriptor} (ht : t.isSequence = false) (indexed : Bool) (v : Value) :
    t.Readable indexed v := by
  refine everywhere_leaf ht ⟨?_, ?_⟩
  · cases t with
    | staticArray _ _ => cases ht
    | _ => trivial
  · rw [entries_leaf ht]
    simp

/-! ## Rows -/

section component

variable {t : Descriptor}

/-- A component that was encoded has the form that the reader asks for. -/
theorem fits_wholePart {v : Value} {before after later : Layout} {bytes : Bytes}
    (hb : t.isBool = false) (hsame : later.isSome = before.isSome)
    (hbytes : Yields (t.encodeIn v) before bytes after) :
    (slotOf later.isSome t (decodeIn later t)).Fits (t.wholePart bytes) := by
  cases hd : t.isDynamic with
  | true =>
      rw [slotOf_varying hb hd, wholePart_varying hd]
      exact .varying bytes _
  | false =>
      rw [wholePart_fixed hd]
      cases hn : t.length? later.isSome with
      | none =>
          rw [slotOf_refused hb hd hn]
          exact .refused _ _
      | some n =>
          rw [slotOf_fixed hb hd hn]
          rw [hsame] at hn
          rw [← length_encodeIn hbytes hn]
          exact .fixed bytes _

/-- A component is read when it is known and decodes. -/
theorem reads_wholePart_iff {layout : Layout} {bytes : Bytes} {w : Value}
    (hb : t.isBool = false) :
    (slotOf layout.isSome t (decodeIn layout t)).Reads (t.wholePart bytes) w ↔
      t.Known layout.isSome ∧ t.decodeIn layout bytes = .ok w := by
  cases hd : t.isDynamic with
  | true =>
      rw [slotOf_varying hb hd, wholePart_varying hd]
      exact ⟨fun h => ⟨Or.inl hd, h⟩, fun h => h.2⟩
  | false =>
      rw [wholePart_fixed hd]
      cases hn : t.length? layout.isSome with
      | none =>
          rw [slotOf_refused hb hd hn]
          constructor
          · intro h
            exact h.elim
          · rintro ⟨hdyn | ⟨n, hsome⟩, -⟩
            · rw [hd] at hdyn
              cases hdyn
            · rw [hn] at hsome
              cases hsome
      | some n =>
          rw [slotOf_fixed hb hd hn]
          exact ⟨fun h => ⟨Or.inr ⟨n, hn⟩, h⟩, fun h => h.2⟩

end component

/-- Components that were encoded have the forms that the reader asks for. -/
theorem RowYields.fits {ts : List Descriptor} {items : List Value}
    {before after later : Layout} {parts : List Part} (hsame : later.isSome = before.isSome)
    (h : RowYields ts items before parts after) :
    List.Forall₂ Slot.Fits (rowSlots later ts) parts := by
  induction h with
  | nil =>
      rw [rowSlots]
      exact .nil
  | bit b _ ih =>
      rw [rowSlots]
      exact .cons (.bit b) (ih hsame)
  | whole hb hbytes _ ih =>
      rw [rowSlots]
      have hmiddle := hsame.trans (grows_encodeIn hbytes).isSome_eq.symm
      exact .cons (fits_wholePart hb hsame hbytes) (ih hmiddle)

theorem known_bool (indexed : Bool) : bool.Known indexed := Or.inr ⟨1, by rw [length?]⟩

/-- A row reads as the canonical forms of its components when all of them are known and can be
    read. -/
theorem RowYields.reads_iff {ts : List Descriptor} {items ws : List Value}
    {before after later : Layout} {parts : List Part} (hgrows : Grows after later)
    (hread : ∀ c ∈ ts.zip items, ∀ {before after bytes w},
      Yields (c.1.encodeIn c.2) before bytes after → Grows after later →
      (c.1.decodeIn later bytes = .ok w ↔
        c.1.Readable later.isSome c.2 ∧ c.1.canonical c.2 = .ok w))
    (h : RowYields ts items before parts after) :
    RowReads (rowSlots later ts) parts ws ↔
      (∀ c ∈ ts.zip items, c.1.Known later.isSome ∧ c.1.Readable later.isSome c.2) ∧
        canonicalRow ts items = .ok ws := by
  induction h generalizing ws with
  | nil =>
      rw [rowSlots, rowReads_nil_iff, canonicalRow_nil]
      simp [eq_comm]
  | bit b _ ih =>
      rw [List.zip_cons_cons, List.forall_mem_cons] at hread ⊢
      have hfirst : bool.Known later.isSome ∧ bool.Readable later.isSome (.bool b) :=
        ⟨known_bool _, readable_leaf rfl _ _⟩
      rw [rowSlots, rowReads_cons_iff, canonicalRow_cons_eq_ok_iff, and_iff_right hfirst]
      simp only [ih hgrows hread.2, canonical_leaf (t := bool) rfl]
      constructor
      · rintro ⟨_, us, rfl, ⟨hvs, hws⟩, rfl⟩
        exact ⟨hvs, _, us, rfl, hws, rfl⟩
      · rintro ⟨hvs, w, us, hw, hws, rfl⟩
        exact ⟨w, us, (Except.ok.inj hw).symm, ⟨hvs, hws⟩, rfl⟩
  | whole hb hbytes hrow ih =>
      rw [List.zip_cons_cons, List.forall_mem_cons] at hread ⊢
      -- the reader comes after the whole row, so after each of its components
      have hmiddle := (hrow.grows fun _ _ => grows_encodeIn).trans hgrows
      rw [rowSlots, rowReads_cons_iff, canonicalRow_cons_eq_ok_iff]
      simp only [reads_wholePart_iff hb, hread.1 hbytes hmiddle, ih hgrows hread.2]
      constructor
      · rintro ⟨w, us, ⟨hknown, hv, hw⟩, ⟨hvs, hws⟩, rfl⟩
        exact ⟨⟨⟨hknown, hv⟩, hvs⟩, w, us, hw, hws, rfl⟩
      · rintro ⟨⟨⟨hknown, hv⟩, hvs⟩, w, us, hw, hws, rfl⟩
        exact ⟨w, us, ⟨hknown, hv, hw⟩, ⟨hvs, hws⟩, rfl⟩

/-! ## Sequences -/

/-- The count in front of a row is found again. -/
theorem rowCount_unique {t : Descriptor} {n n' : Nat} {count count' body body' : Bytes}
    (ht : t.isSequence = true) (hn : t.TakesCount n) (hn' : t.TakesCount n')
    (hcount : t.rowCount n = .ok count) (hcount' : t.rowCount n' = .ok count')
    (h : count ++ body = count' ++ body') : n = n' ∧ body = body' := by
  cases t with
  | dynamicArray t =>
      obtain ⟨hle, rfl⟩ := twoBytes_eq_ok_iff.mp hcount
      obtain ⟨hle', rfl⟩ := twoBytes_eq_ok_iff.mp hcount'
      obtain ⟨hdigits, hbody⟩ := List.append_inj h (by simp)
      refine ⟨?_, hbody⟩
      rw [← toNat_two hle, hdigits, toNat_two hle']
  | staticArray _ _ | tuple _ | struct _ _ =>
      cases hcount
      cases hcount'
      exact ⟨Eq.trans hn (Eq.symm hn'), h⟩
  | _ => cases ht

/-- Decoding a row behind its count. -/
theorem decodeIn_counted {t : Descriptor} {layout : Layout} {n : Nat} {count body : Bytes}
    {w : Value} (ht : t.isSequence = true) (hn : t.TakesCount n)
    (hcount : t.rowCount n = .ok count) :
    t.decodeIn layout (count ++ body) = .ok w ↔
      t.GuardPasses (count ++ body) ∧ ∃ items,
        readRow t.refusal body (rowSlots layout (t.rowTypes n)) = .ok items ∧
        w = t.rowValue items := by
  rw [decodeIn_sequence_eq_ok_iff ht]
  constructor
  · rintro ⟨n', count', body', items, hn', hcount', hbytes, hguard, hitems, rfl⟩
    obtain ⟨rfl, rfl⟩ := rowCount_unique ht hn hn' hcount hcount' hbytes
    exact ⟨hguard, items, hitems, rfl⟩
  · rintro ⟨hguard, items, hitems, rfl⟩
    exact ⟨n, count, body, items, hn, hcount, rfl, hguard, hitems, rfl⟩

theorem leastRow_zero (t : Descriptor) : t.leastRow 0 = 0 := by
  rw [leastRow]
  split
  · rfl
  · split <;> simp

/-- The least length of a static array is not above the length of its encoding, if its elements
    are not shorter by index. -/
theorem leastRow_le_iff {t : Descriptor} {items : List Value} {before after : Layout}
    {parts : List Part} {body : Bytes} (hknown : items ≠ [] → t.Known before.isSome)
    (hparts : RowYields (List.replicate items.length t) items before parts after)
    (hbody : assemble parts = .ok body) :
    t.leastRow items.length ≤ body.length ↔
      (items.length = 0 ∨ t.isBool = true ∨ t.isDynamic = true ∨
        t.fixedLength?.getD 0 ≤ (t.length? before.isSome).getD 0) := by
  by_cases hitems : items = []
  · subst hitems
    rw [List.length_nil, leastRow_zero]
    exact iff_of_true (Nat.zero_le _) (Or.inl rfl)
  · have hpos : 0 < items.length := List.length_pos_iff.mpr hitems
    rcases t.placement with rfl | ⟨hb, hd⟩ | ⟨hb, hd⟩
    -- bits take an eighth of a byte each, by index and by value
    · have hlength := hparts.length_eq (fun _ _ _ _ _ _ _ => length_encodeIn) hbody (by
        rw [widths_replicate, widthOf_of_isBool rfl, rowLength_replicate_bit _ (by omega)])
      refine iff_of_true ?_ (Or.inr (Or.inl rfl))
      have hleast : bool.leastRow items.length = (items.length + 7) / 8 := rfl
      rw [hleast, hlength, if_pos rfl]
      omega
    · refine iff_of_true ?_ (Or.inr (Or.inr (Or.inl hd)))
      -- the two bytes of each offset are there
      have htwo := hparts.two_mul_le (fun c hc => List.eq_of_mem_replicate hc ▸ hd) hbody
      rw [List.length_replicate] at htwo
      rw [leastRow, hb, hd]
      exact htwo
    -- components of one width take it once each
    · rcases hknown hitems with hdyn | ⟨n, hn⟩
      · rw [hd] at hdyn
        cases hdyn
      · have hlength := hparts.length_eq (fun _ _ _ _ _ _ _ => length_encodeIn) hbody (by
          rw [widths_replicate, hn, widthOf_some hb, rowLength_replicate_bytes])
        rw [leastRow, hb, hd, hn, hlength]
        simp only [Bool.false_eq_true, if_false, Option.getD_some, false_or]
        constructor
        · intro hle
          exact Or.inr (Nat.le_of_mul_le_mul_right hle hpos)
        · rintro (hzero | hle)
          · omega
          · exact Nat.mul_le_mul_right _ hle

/-- The check in front of a sequence passes on its encoding as `GuardSuits` says. -/
theorem guardPasses_iff {t : Descriptor} {v : Value} {items : List Value}
    {before after : Layout} {parts : List Part} {count body : Bytes}
    (hitems : t.rowItems v = .ok items)
    (hknown : ∀ c ∈ t.rowTypes items.length, c.Known before.isSome)
    (hparts : RowYields (t.rowTypes items.length) items before parts after)
    (hbody : assemble parts = .ok body) (hcount : t.rowCount items.length = .ok count) :
    t.GuardPasses (count ++ body) ↔ t.GuardSuits before.isSome := by
  cases t with
  | staticArray t n =>
      have hn : items.length = n := takesCount_of_rowItems hitems
      subst hn
      cases hcount
      have hleast := leastRow_le_iff (t := t) (fun hne => hknown t (by
        rw [rowTypes, List.mem_replicate]
        exact ⟨by simpa using hne, rfl⟩)) hparts hbody
      exact and_congr_right fun _ => hleast
  | _ => exact Iff.rfl

/-- **AN ENCODING DECODES TO THE CANONICAL VALUE**, within the arrays it has left or later ones,
    exactly when the reader gets through it. -/
theorem decodeIn_eq_ok_iff {t : Descriptor} {v w : Value} {before after later : Layout}
    {bytes : Bytes} (hvalid : t.Valid) (hv : t.HasForm v)
    (h : Yields (t.encodeIn v) before bytes after) (hgrows : Grows after later) :
    t.decodeIn later bytes = .ok w ↔
      t.Readable later.isSome v ∧ t.canonical v = .ok w := by
  induction t using Descriptor.inductOn generalizing v w before after bytes with
  | step t ih =>
      cases ht : t.isSequence with
      | false =>
          rw [decodeIn_leaf ht hvalid.here.width hv.here.1 hv.here.2 h hgrows,
            canonical_leaf ht]
          exact ⟨fun hw => ⟨readable_leaf ht _ v, hw⟩, fun hw => hw.2⟩
      | true =>
          obtain ⟨items, parts, body, count, hitems, hparts, hbody, hcount, rfl⟩ :=
            (yields_encodeIn_sequence ht).mp h
          have htakes := takesCount_of_rowItems hitems
          have hlen := (length_rowTypes ht htakes).symm
          have hentries := entries_eq_zip hv.here.1 hitems
          have hsame : later.isSome = before.isSome :=
            ((grows_encodeIn h).trans hgrows).isSome_eq
          have hreads := fun us => @RowYields.reads_iff _ _ us _ _ _ _ hgrows (by
            intro c hc before after bytes w hbytes hgrows
            rw [← hentries] at hc
            have hinner := mem_inner_of_mem_entries hc
            exact ih c.1 hinner (hvalid.inside hinner) (hv.inside hc) hbytes hgrows) hparts
          rw [decodeIn_counted ht htakes hcount, canonical_sequence_eq_ok_iff ht hv.here.1 hitems]
          simp only [readRow_eq_ok_iff (hparts.fits hsame) (isRow_of_assemble hbody), hreads]
          -- what remains is that the sequence is readable when its check passes and its
          -- entries are
          have hreadable : t.Readable later.isSome v ↔ t.GuardPasses (count ++ body) ∧
              ∀ c ∈ (t.rowTypes items.length).zip items,
                c.1.Known later.isSome ∧ c.1.Readable later.isSome c.2 := by
            rw [Readable, everywhere_iff, ReadableHere, hentries, and_assoc,
              ← forall₂_and, hsame]
            refine and_congr_left fun hall => (guardPasses_iff hitems ?_ hparts hbody hcount).symm
            intro c hc
            rw [← List.map_fst_zip (Nat.le_of_eq hlen.symm)] at hc
            obtain ⟨entry, hentry, rfl⟩ := List.mem_map.mp hc
            exact (hall entry hentry).1
          rw [hreadable]
          constructor
          · rintro ⟨hguard, ws, ⟨hknown, hws⟩, rfl⟩
            exact ⟨⟨hguard, hknown⟩, ws, hws, rfl⟩
          · rintro ⟨⟨hguard, hknown⟩, ws, hws, rfl⟩
            exact ⟨hguard, ws, ⟨hknown, hws⟩, rfl⟩

end Descriptor

end AvmSandbox
