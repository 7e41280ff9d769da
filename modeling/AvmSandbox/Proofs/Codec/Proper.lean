import AvmSandbox.Proofs.Codec.Canonical
import AvmSandbox.Proofs.Codec.Exactness

/-! # Proper values — what decoding produces

    However references are laid out, decoding produces values of one kind: of the
    form its types ask for, with the fields of structs in their order, and with
    numbers and counts that fit.  Bringing a value of the right form into
    canonical form makes it such a value.  A value of this kind consists of
    others, and is encoded whenever its layout by value is short enough.

    * `Proper`, with `proper_rowValue` and `Proper.eq_rowValue`: sequences and
      their components;
    * `proper_of_canonical` and `proper_of_decodeIn`: how proper values arise;
    * `encode_eq_layout` and `length_layout_inside`: what is encoded, whole and in
      parts. -/

namespace AvmSandbox

namespace Descriptor

open Encoding

variable {t : Descriptor} {v w : Value}

/-- Whether a value is of the kind that decoding produces. -/
structure Proper (t : Descriptor) (v : Value) : Prop where
  form : t.HasForm v
  canonical : t.canonical v = .ok v
  fits : t.Representable v

/-! ## Rows -/

/-- A row is in canonical form when its components are. -/
theorem canonicalRow_eq_self_iff {ts : List Descriptor} {ws : List Value}
    (hlen : ws.length = ts.length) :
    canonicalRow ts ws = .ok ws ↔ ∀ c ∈ ts.zip ws, c.1.canonical c.2 = .ok c.2 := by
  induction ts generalizing ws with
  | nil =>
      obtain rfl := List.length_eq_zero_iff.mp hlen
      simp [canonicalRow_nil]
  | cons t ts ih =>
      cases ws with
      | nil => cases hlen
      | cons w ws =>
          rw [canonicalRow_cons_eq_ok_iff, List.zip_cons_cons, List.forall_mem_cons,
            ← ih (Nat.succ.inj hlen)]
          constructor
          · rintro ⟨w', ws', hw, hws, hsame⟩
            cases hsame
            exact ⟨hw, hws⟩
          · rintro ⟨hw, hws⟩
            exact ⟨w, ws, hw, hws, rfl⟩

theorem canonicalRow_eq_mapM (ts : List Descriptor) (items : List Value) :
    canonicalRow ts items = (ts.zip items).mapM fun c => c.1.canonical c.2 := by
  induction ts generalizing items with
  | nil =>
      rw [canonicalRow_nil]
      rfl
  | cons t ts ih =>
      cases items with
      | nil =>
          rw [canonicalRow]
          · rfl
          · simp
      | cons v items => rw [canonicalRow, ih, List.zip_cons_cons, List.mapM_cons]

theorem length_of_canonicalRow {ts : List Descriptor} {items ws : List Value}
    (hlen : items.length = ts.length) (h : canonicalRow ts items = .ok ws) :
    ws.length = items.length := by
  rw [canonicalRow_eq_mapM] at h
  rw [length_of_mapM h, List.length_zip, hlen, Nat.min_self]

/-- What a row holds in canonical form is the canonical form of what it held there. -/
theorem canonical_of_mem_zip {ts : List Descriptor} {items ws : List Value}
    {c : Descriptor × Value} (hlen : items.length = ts.length)
    (h : canonicalRow ts items = .ok ws) (hc : c ∈ ts.zip ws) :
    ∃ v, (c.1, v) ∈ ts.zip items ∧ c.1.canonical v = .ok c.2 := by
  obtain ⟨index, hindex⟩ := List.mem_iff_getElem?.mp hc
  obtain ⟨ht, hw⟩ := List.getElem?_zip_eq_some.mp hindex
  obtain ⟨hlt, -⟩ := List.getElem?_eq_some_iff.mp hw
  rw [length_of_canonicalRow hlen h] at hlt
  have hv : (ts.zip items)[index]? = some (c.1, items[index]) :=
    List.getElem?_zip_eq_some.mpr ⟨ht, List.getElem?_eq_getElem hlt⟩
  rw [canonicalRow_eq_mapM] at h
  obtain ⟨w, hw', hcanonical⟩ := exists_getElem?_of_mapM h hv
  cases hw.symm.trans hw'
  exact ⟨items[index], List.mem_of_getElem? hv, hcanonical⟩

/-- The numbers in front of a row fit when the count does. -/
theorem fitsHere_congr {items ws : List Value} (ht : t.isSequence = true)
    (hv : t.VariantHere v) (hitems : t.rowItems v = .ok items) (hw : t.VariantHere w)
    (hws : t.rowItems w = .ok ws) (hlen : ws.length = items.length) (h : t.FitsHere v) :
    t.FitsHere w := by
  have hcount := (rowCount_eq_ok_iff ht hv hitems).mpr ⟨h, rfl⟩
  rw [← hlen] at hcount
  exact ((rowCount_eq_ok_iff ht hw hws).mp hcount).1

/-- A sequence of proper components is proper. -/
theorem proper_rowValue {ws : List Value} (ht : t.isSequence = true) (hnames : t.NamesDistinct)
    (htakes : t.TakesCount ws.length) (hfits : t.FitsHere (t.rowValue ws))
    (hall : ∀ c ∈ (t.rowTypes ws.length).zip ws, c.1.Proper c.2) : t.Proper (t.rowValue ws) := by
  have hvariant := variantHere_rowValue ht ws
  have hitems := rowItems_rowValue ht hnames htakes
  have hlen := (length_rowTypes ht htakes).symm
  refine ⟨hasForm_rowValue ht hitems fun c hc => (hall c hc).form, ?_, .intro hfits ?_⟩
  · refine (canonical_sequence_eq_ok_iff ht hvariant hitems).mpr ⟨ws, ?_, rfl⟩
    exact (canonicalRow_eq_self_iff hlen).mpr fun c hc => (hall c hc).canonical
  · rw [entries_eq_zip hvariant hitems]
    exact fun c hc => (hall c hc).fits

/-- A proper sequence is made of the components that are taken from it. -/
theorem Proper.eq_rowValue {items : List Value} (ht : t.isSequence = true)
    (hnames : t.NamesDistinct) (h : t.Proper v) (hitems : t.rowItems v = .ok items) :
    v = t.rowValue items ∧ ∀ c ∈ (t.rowTypes items.length).zip items, c.1.Proper c.2 := by
  have htakes := takesCount_of_rowItems hitems
  have hlen := (length_rowTypes ht htakes).symm
  have hentries := entries_eq_zip h.form.here.1 hitems
  obtain ⟨ws, hws, hv⟩ := (canonical_sequence_eq_ok_iff ht h.form.here.1 hitems).mp h.canonical
  have hsame := length_of_canonicalRow hlen hws
  obtain rfl : items = ws := by
    have hback := rowItems_rowValue ht hnames (hsame ▸ htakes)
    rw [← hv, hitems] at hback
    exact Except.ok.inj hback
  refine ⟨hv, fun c hc => ⟨h.form.inside (hentries ▸ hc), ?_, h.fits.inside (hentries ▸ hc)⟩⟩
  exact (canonicalRow_eq_self_iff hlen).mp hws c hc

/-! ## How proper values arise -/

theorem proper_leaf (ht : t.isSequence = false) (hvariant : t.VariantHere v)
    (harity : t.ArityHere v) (hfits : t.FitsHere v) : t.Proper v :=
  ⟨everywhere_leaf ht ⟨hvariant, harity⟩, canonical_leaf ht v, everywhere_leaf ht hfits⟩

/-- **CANONICAL FORMS ARE PROPER**, if the value had the right form and its numbers fit. -/
theorem proper_of_canonical (hvalid : t.Valid) (hv : t.HasForm v) (hfits : t.Representable v)
    (hw : t.canonical v = .ok w) : t.Proper w := by
  induction t using Descriptor.inductOn generalizing v w with
  | step t ih =>
      cases ht : t.isSequence with
      | false =>
          rw [canonical_leaf ht] at hw
          cases hw
          exact proper_leaf ht hv.here.1 hv.here.2 hfits.here
      | true =>
          obtain ⟨items, hitems⟩ := (arityHere_iff ht hv.here.1).mp hv.here.2
          have htakes := takesCount_of_rowItems hitems
          have hlen := (length_rowTypes ht htakes).symm
          have hentries := entries_eq_zip hv.here.1 hitems
          obtain ⟨ws, hws, rfl⟩ := (canonical_sequence_eq_ok_iff ht hv.here.1 hitems).mp hw
          have hsame := length_of_canonicalRow hlen hws
          have hback := rowItems_rowValue ht hvalid.here.names (hsame ▸ htakes)
          refine proper_rowValue ht hvalid.here.names (hsame ▸ htakes) ?_ ?_
          · exact fitsHere_congr ht hv.here.1 hitems (variantHere_rowValue ht ws) hback hsame
              hfits.here
          · intro c hc
            rw [hsame] at hc
            obtain ⟨u, hu, hcanonical⟩ := canonical_of_mem_zip hlen hws hc
            rw [← hentries] at hu
            have hinner := mem_inner_of_mem_rowTypes (List.of_mem_zip hc).1
            have hform : c.1.HasForm u := hv.inside hu
            have hinside : c.1.Representable u := hfits.inside hu
            exact ih c.1 hinner (hvalid.inside hinner) hform hinside hcanonical

/-- A reference that was found in the arrays is one. -/
theorem variantHere_of_decodeIn {refs : References} {bytes : Bytes} (hr : t.isReference = true)
    (h : t.decodeIn (some refs) bytes = .ok w) : t.VariantHere w := by
  cases t with
  | account | asset | application =>
      rw [decodeIn] at h
      obtain ⟨i, -, h⟩ := bind_eq_ok_iff.mp h
      obtain ⟨found, -, h⟩ := bind_eq_ok_iff.mp h
      rw [← pure_eq_ok_iff.mp h]
      trivial
  | _ => cases hr

theorem proper_of_decodeIn_leaf {layout : Layout} {bytes : Bytes} (ht : t.isSequence = false)
    (hwidth : t.WidthPermitted) (h : t.decodeIn layout bytes = .ok w) : t.Proper w := by
  have hbyValue : t.decodeIn none bytes = .ok w → t.Proper w := by
    intro h
    obtain ⟨hvariant, harity, hfits, -⟩ := leaf_of_decodeIn ht hwidth h
    exact proper_leaf ht hvariant harity (fitsHere_of_leafFits ht hfits)
  cases hr : t.isReference with
  | false => exact hbyValue (decodeIn_leaf_eq ht hr layout bytes ▸ h)
  | true =>
      cases layout with
      | none => exact hbyValue h
      | some refs =>
          have hvariant := variantHere_of_decodeIn hr h
          cases t with
          | account | asset | application => exact proper_leaf ht hvariant trivial trivial
          | _ => cases hr

/-- What a slot has read is a boolean, or was decoded from some bytes. -/
theorem of_slotOf_reads {indexed : Bool} {decode : Bytes → Result Value} {p : Part}
    (h : (slotOf indexed t decode).Reads p w) :
    (t = bool ∧ ∃ b, w = .bool b) ∨ ∃ bytes, decode bytes = .ok w := by
  rcases t.placement with rfl | ⟨hb, hd⟩ | ⟨hb, hd⟩
  · have h : Slot.Reads .bit p w := h
    cases p with
    | bit b => exact .inl ⟨rfl, b, h⟩
    | _ => exact h.elim
  · rw [slotOf_varying hb hd] at h
    cases p with
    | varying bytes => exact .inr ⟨bytes, h⟩
    | _ => exact h.elim
  · cases hn : t.length? indexed with
    | none =>
        rw [slotOf_refused hb hd hn] at h
        exact h.elim
    | some n =>
        rw [slotOf_fixed hb hd hn] at h
        cases p with
        | fixed bytes => exact .inr ⟨bytes, h⟩
        | _ => exact h.elim

/-- What slots have read of a row is proper when all that they can read is. -/
theorem proper_of_rowReads {layout : Layout} {ts : List Descriptor} {parts : List Part}
    {ws : List Value}
    (hread : ∀ t ∈ ts, ∀ {bytes w}, t.decodeIn layout bytes = .ok w → t.Proper w)
    (hreads : RowReads (rowSlots layout ts) parts ws) :
    ws.length = ts.length ∧ ∀ c ∈ ts.zip ws, c.1.Proper c.2 := by
  induction ts generalizing parts ws with
  | nil =>
      rw [rowSlots] at hreads
      cases hreads with
      | nil => exact ⟨rfl, by simp⟩
  | cons t ts ih =>
      rw [rowSlots] at hreads
      rw [List.forall_mem_cons] at hread
      cases hreads with
      | @cons _ p w _ parts ws hw hws =>
          obtain ⟨hlen, hall⟩ := ih hread.2 hws
          refine ⟨congrArg Nat.succ hlen, ?_⟩
          rw [List.zip_cons_cons, List.forall_mem_cons]
          refine ⟨?_, hall⟩
          rcases of_slotOf_reads hw with ⟨rfl, b, rfl⟩ | ⟨bytes, hw⟩
          · exact proper_leaf rfl trivial trivial trivial
          · exact hread.1 hw

/-- **WHAT IS DECODED IS PROPER**, whether references are laid out by index or by value. -/
theorem proper_of_decodeIn {layout : Layout} {bytes : Bytes} (hvalid : t.Valid)
    (h : t.decodeIn layout bytes = .ok w) : t.Proper w := by
  induction t using Descriptor.inductOn generalizing bytes w with
  | step t ih =>
      cases ht : t.isSequence with
      | false => exact proper_of_decodeIn_leaf ht hvalid.here.width h
      | true =>
          obtain ⟨n, count, body, ws, htakes, hcount, -, -, hrow, rfl⟩ :=
            (decodeIn_sequence_eq_ok_iff ht).mp h
          obtain ⟨parts, -, -, hreads⟩ := isRow_of_readRow hrow
          obtain ⟨hlen, hall⟩ := proper_of_rowReads (by
            intro c hc bytes w hw
            have hinner := mem_inner_of_mem_rowTypes hc
            exact ih c hinner (hvalid.inside hinner) hw) hreads
          obtain rfl : ws.length = n := hlen.trans (length_rowTypes ht htakes)
          have hback := rowItems_rowValue ht hvalid.here.names htakes
          have hfits := (rowCount_eq_ok_iff ht (variantHere_rowValue ht ws) hback).mp hcount
          exact proper_rowValue ht hvalid.here.names htakes hfits.1 hall

/-! ## What is encoded -/

/-- A value of the right form whose numbers fit is encoded if its layout by value is not too
    long. -/
theorem encode_eq_layout (hv : t.HasForm v) (hfits : t.Representable v)
    (hle : (t.layout v).length ≤ Limits.byteString) : t.encode v = .ok (written (t.layout v)) :=
  (encodeUpTo_eq_ok_iff_layout hv (by decide)).1.mpr ⟨hfits, hle, rfl⟩

/-- The layout of an entry is not longer than that of the value, or a single byte. -/
theorem length_layout_inside {n : Nat} {c : Descriptor × Value} (hv : t.HasForm v)
    (hle : (t.layout v).length ≤ n) (hn : 1 ≤ n) (hc : c ∈ t.entries v) :
    (c.1.layout c.2).length ≤ n := by
  cases hb : c.1.isBool with
  | true => exact Nat.le_trans (length_layout_bool (hv.inside hc) hb) hn
  | false =>
      cases ht : t.isSequence with
      | false =>
          rw [entries_leaf ht] at hc
          cases hc
      | true =>
          obtain ⟨items, hitems⟩ := (arityHere_iff ht hv.here.1).mp hv.here.2
          rw [layout_sequence ht hv.here.1 hitems, List.length_append] at hle
          have hrow := length_layout_le hc hb
          omega

end Descriptor

end AvmSandbox
