import AvmSandbox.Proofs.Codec.Layout

/-! # Exactness — nothing but encodings is decoded

    The reader checks offsets only against each other and against the end of the
    buffer, and that is enough: every inner reader takes up the whole of what it
    is given, so whatever is accepted is the layout of the value it is accepted
    as, up to the bits that no reader looks at.

    * `readAs_of_decodeIn`: what is decoded lays out as the buffer it came from;
    * `unpadded_layout`: bits are ignored in booleans only;
    * `encodeUpTo_of_decode`: the round trip from a buffer. -/

namespace AvmSandbox

/-! ## Layouts without padding -/

/-- Whether all bits of some octets count. -/
def Unpadded (octets : List Octet) : Prop := ∀ o ∈ octets, o.padding = 0

namespace Unpadded

theorem solids (bytes : Bytes) : Unpadded (solids bytes) := by
  intro o ho
  obtain ⟨b, -, rfl⟩ := List.mem_map.mp ho
  rfl

theorem append {xs ys : List Octet} (hx : Unpadded xs) (hy : Unpadded ys) : Unpadded (xs ++ ys) :=
  List.forall_mem_append.mpr ⟨hx, hy⟩

/-- Where all bits count, what is admitted is what is written. -/
theorem eq_written {octets : List Octet} {bytes : Bytes} (h : Unpadded octets)
    (hadmitted : Admitted octets bytes) : bytes = written octets := by
  induction hadmitted with
  | nil => rfl
  | @cons o byte octets bytes hbyte _ ih =>
      rw [Unpadded, List.forall_mem_cons] at h
      have hbyte : byte &&& ~~~o.padding = o.byte := hbyte
      have hsame : byte = o.byte := by simpa [h.1] using hbyte
      rw [ih h.2, hsame]
      rfl

end Unpadded

/-- Whether all bits of a component of a row count. -/
def Component.Unpadded : Component → Prop
  | bit _ => False
  | fixed os | varying os => AvmSandbox.Unpadded os

/-- A row without booleans has no padding of its own. -/
theorem unpadded_rowOctets {cs : List Component} (h : ∀ c ∈ cs, c.Unpadded) :
    Unpadded (rowOctets cs) := by
  have hboth : ∀ offset,
      Unpadded (headOctets offset (stretches cs)) ∧ Unpadded (tailOctets (stretches cs)) := by
    induction cs with
    | nil =>
        intro _
        simp [stretches, headOctets, tailOctets, Unpadded]
    | cons c cs ih =>
        rw [List.forall_mem_cons] at h
        intro offset
        cases c with
        | bit b => exact h.1.elim
        | fixed os =>
            obtain ⟨hheads, htails⟩ := ih h.2 (offset + 0)
            exact ⟨Unpadded.append h.1 hheads, htails⟩
        | varying os =>
            obtain ⟨hheads, htails⟩ := ih h.2 (offset + os.length)
            rw [stretches, headOctets, tailOctets_cons]
            exact ⟨(Unpadded.solids _).append hheads, Unpadded.append h.1 htails⟩
  exact (hboth _).1.append (hboth 0).2

namespace Descriptor

open Encoding

/-- A type without booleans at any depth. -/
def NoBool : Descriptor → Prop := Throughout fun t => t.isBool = false

/-- Without booleans every bit of a layout counts. -/
theorem unpadded_layout {t : Descriptor} {v : Value} (ht : t.NoBool) (hv : t.HasForm v) :
    Unpadded (t.layout v) := by
  induction t using Descriptor.inductOn generalizing v with
  | step t ih =>
      cases hseq : t.isSequence with
      | false =>
          rw [layout_leaf hseq]
          cases t with
          | bool => cases ht.here
          | _ => exact Unpadded.solids _
      | true =>
          obtain ⟨items, hitems⟩ := (arityHere_iff hseq hv.here.1).mp hv.here.2
          have hcount : Unpadded (t.countOctets items.length) := by
            cases t with
            | dynamicArray t => exact Unpadded.solids _
            | _ => simp [countOctets, Unpadded]
          rw [layout_sequence hseq hv.here.1 hitems]
          refine hcount.append (unpadded_rowOctets ?_)
          intro c hc
          obtain ⟨entry, hentry, rfl⟩ := List.mem_map.mp hc
          have hinner := mem_inner_of_mem_entries hentry
          have hlayout := ih entry.1 hinner (ht.inside hinner) (hv.inside hentry)
          have hb := (ht.inside hinner).here
          cases hd : entry.1.isDynamic with
          | true => rw [component_varying hb hd]; exact hlayout
          | false => rw [component_fixed hb hd]; exact hlayout

/-! ## What a buffer is read as -/

/-- A buffer is the layout of a value, which is canonical and can be read back and written. -/
structure ReadAs (t : Descriptor) (bytes : Bytes) (w : Value) : Prop where
  form : t.HasForm w
  canonical : t.canonical w = .ok w
  readable : t.Readable false w
  yields : Yields (t.encodeIn w) none (written (t.layout w)) none
  admitted : Admitted (t.layout w) bytes

/-- Leaves are read as themselves. -/
theorem readAs_leaf {t : Descriptor} {bytes : Bytes} {w : Value} (ht : t.isSequence = false)
    (hwidth : t.WidthPermitted) (h : t.decodeIn none bytes = .ok w) : t.ReadAs bytes w := by
  obtain ⟨hvariant, harity, hfits, hadmitted⟩ := leaf_of_decodeIn ht hwidth h
  have hlayout := layout_leaf ht w
  refine ⟨everywhere_leaf ht ⟨hvariant, harity⟩, canonical_leaf ht w, readable_leaf ht _ w, ?_, ?_⟩
  · rw [hlayout, written_leafOctets hvariant]
    exact yields_leaf ht hvariant harity hfits
  · rw [hlayout]
    exact hadmitted

/-- A component that a slot has read. -/
theorem admits_of_reads {t : Descriptor} {p : Part} {w : Value}
    (hread : ∀ {bytes}, t.decodeIn none bytes = .ok w → t.ReadAs bytes w)
    (hfits : (slotOf false t (decodeIn none t)).Fits p)
    (hreads : (slotOf false t (decodeIn none t)).Reads p w) :
    t.Known false ∧ (∃ bytes, t.ReadAs bytes w) ∧ (component t (layout t) w).Admits p := by
  rcases t.placement with rfl | ⟨hb, hd⟩ | ⟨hb, hd⟩
  · cases hfits with
    | bit b =>
        obtain rfl : w = .bool b := hreads
        refine ⟨known_bool _, ⟨[if b then 0x80 else 0], hread ?_⟩, rfl⟩
        cases b <;> rfl
  · rw [slotOf_varying hb hd] at hfits hreads
    rw [component_varying hb hd]
    cases hfits with
    | varying raw =>
        have hraw := hread (show t.decodeIn none raw = .ok w from hreads)
        exact ⟨Or.inl hd, ⟨raw, hraw⟩, hraw.admitted⟩
  · cases hn : t.length? false with
    | none =>
        rw [slotOf_refused hb hd hn] at hreads
        exact hreads.elim
    | some n =>
        rw [slotOf_fixed hb hd hn] at hfits hreads
        rw [component_fixed hb hd]
        cases hfits with
        | fixed raw =>
            have hraw := hread (show t.decodeIn none raw = .ok w from hreads)
            exact ⟨Or.inr ⟨_, hn⟩, ⟨raw, hraw⟩, hraw.admitted⟩

/-- The components of a row that slots have read. -/
theorem admits_of_rowReads {ts : List Descriptor} {parts : List Part} {ws : List Value}
    (hread : ∀ t ∈ ts, ∀ {bytes w}, t.decodeIn none bytes = .ok w → t.ReadAs bytes w)
    (hfits : List.Forall₂ Slot.Fits (rowSlots none ts) parts)
    (hreads : RowReads (rowSlots none ts) parts ws) :
    ws.length = ts.length ∧ (∀ t ∈ ts, t.Known false) ∧
      (∀ c ∈ ts.zip ws, ∃ bytes, c.1.ReadAs bytes c.2) ∧ canonicalRow ts ws = .ok ws ∧
      List.Forall₂ Component.Admits
        ((ts.zip ws).map fun c => component c.1 (layout c.1) c.2) parts := by
  induction ts generalizing parts ws with
  | nil =>
      rw [rowSlots] at hfits hreads
      cases hreads with
      | nil => exact ⟨rfl, by simp, by simp, canonicalRow_nil [], .nil⟩
  | cons t ts ih =>
      rw [rowSlots] at hfits hreads
      rw [List.forall_mem_cons] at hread
      cases hreads with
      | @cons _ p w _ parts ws hw hws =>
          cases hfits with
          | cons hp hps =>
              obtain ⟨hknown, ⟨bytes, has⟩, hadmits⟩ := admits_of_reads hread.1 hp hw
              obtain ⟨hlen, hknowns, hall, hcanonical, hadmitted⟩ := ih hread.2 hps hws
              refine ⟨congrArg Nat.succ hlen, ?_, ?_, ?_, .cons hadmits hadmitted⟩
              · exact List.forall_mem_cons.mpr ⟨hknown, hknowns⟩
              · rw [List.zip_cons_cons]
                exact List.forall_mem_cons.mpr ⟨⟨bytes, has⟩, hall⟩
              · exact canonicalRow_cons_eq_ok_iff.mpr ⟨w, ws, has.canonical, hcanonical, rfl⟩

/-- The check in front of a sequence only looks at the length of the buffer. -/
theorem guardPasses_congr {t : Descriptor} {as bs : Bytes} (h : as.length = bs.length) :
    t.GuardPasses as ↔ t.GuardPasses bs := by
  cases t with
  | staticArray t n =>
      show _ ∧ t.leastRow n ≤ as.length ↔ _ ∧ t.leastRow n ≤ bs.length
      rw [h]
  | _ => exact Iff.rfl

/-- **WHAT IS DECODED LAYS OUT AS THE BUFFER IT CAME FROM**, up to the padding of booleans. -/
theorem readAs_of_decodeIn {t : Descriptor} {bytes : Bytes} {w : Value} (hvalid : t.Valid)
    (h : t.decodeIn none bytes = .ok w) : t.ReadAs bytes w := by
  induction t using Descriptor.inductOn generalizing bytes w with
  | step t ih =>
      cases ht : t.isSequence with
      | false => exact readAs_leaf ht hvalid.here.width h
      | true =>
          obtain ⟨n, count, body, ws, htakes, hcount, rfl, hguard, hrow, rfl⟩ :=
            (decodeIn_sequence_eq_ok_iff ht).mp h
          obtain ⟨parts, hisRow, hfits, hreads⟩ := isRow_of_readRow hrow
          obtain ⟨hlen, hknown, hall, hcanonical, hadmits⟩ := admits_of_rowReads (by
            intro c hc bytes w hw
            have hinner := mem_inner_of_mem_rowTypes hc
            exact ih c hinner (hvalid.inside hinner) hw) hfits hreads
          -- the values make up a value from which they can be taken again
          obtain rfl : ws.length = n := hlen.trans (length_rowTypes ht htakes)
          have hvariant := variantHere_rowValue ht ws
          have hitems := rowItems_rowValue ht hvalid.here.names htakes
          have hentries := entries_eq_zip hvariant hitems
          have hform := hasForm_rowValue ht hitems fun c hc => (hall c hc).elim fun _ h => h.form
          -- the buffer is a row of the pieces, and the layout is what such rows have in common
          obtain ⟨hoffsets, hadmitted⟩ := admitted_of_isRow hadmits hisRow
          obtain ⟨hfitsHere, rfl⟩ := (rowCount_eq_ok_iff ht hvariant hitems).mp hcount
          have hlayout := layout_sequence ht hvariant hitems
          rw [components, hentries] at hlayout
          have hparts := RowYields.of_layouts hlen
            (fun c hc => (hall c hc).elim fun _ h => h.form)
            (fun c hc => (hall c hc).elim fun _ h => h.yields)
          have hbody := assemble_eq_ok_iff.mpr ⟨hoffsets, rfl⟩
          have hlength := hadmitted.length_eq
          refine ⟨hform, ?_, .intro ⟨?_, ?_⟩ ?_, ?_, ?_⟩
          · exact (canonical_sequence_eq_ok_iff ht hvariant hitems).mpr ⟨ws, hcanonical, rfl⟩
          · refine (@guardPasses_iff _ _ _ none _ _ _ _ hitems hknown hparts hbody hcount).mp
              ((guardPasses_congr ?_).mp hguard)
            rw [List.length_append, List.length_append, length_written (rowOctets _), hlength]
          · intro c hc
            exact hknown c.1 (List.of_mem_zip (hentries ▸ hc)).1
          · intro c hc
            exact (hall c (hentries ▸ hc)).elim fun _ h => h.readable
          · rw [hlayout, written_append]
            exact (yields_encodeIn_sequence ht).mpr
              ⟨ws, _, _, _, hitems, hparts, hbody, hcount, rfl⟩
          · rw [hlayout]
            exact (admitted_written _).append hadmitted

/-- **THE DECODER ACCEPTS NOTHING BUT ENCODINGS**, up to the padding of booleans: what it has
    accepted as a value encodes to as many bytes again, which decode to that value and differ from
    the buffer in bits only that carry nothing. -/
theorem encodeUpTo_of_decode {t : Descriptor} {max : Nat} {bytes : Bytes} {w : Value}
    (hvalid : t.Valid) (h : t.decode bytes = .ok w) (hmax : bytes.length ≤ max) :
    ∃ again, t.encodeUpTo max w = .ok again ∧ again.length = bytes.length ∧
      t.decode again = .ok w ∧ (t.NoBool → again = bytes) ∧
      again = written (t.layout w) ∧ Admitted (t.layout w) bytes ∧
      Everywhere LaidOutHere t w := by
  have has := readAs_of_decodeIn hvalid h
  have hlength : (written (t.layout w)).length = bytes.length := by
    rw [length_written, has.admitted.length_eq]
  refine ⟨written (t.layout w), ?_, hlength, ?_, ?_, rfl, has.admitted, laidOut has.form⟩
  · exact encodeUpTo_eq_ok_iff.mpr ⟨has.yields, hlength ▸ hmax⟩
  · exact (decodeIn_eq_ok_iff hvalid has.form has.yields .byValue).mpr
      ⟨has.readable, has.canonical⟩
  · intro hbool
    exact ((unpadded_layout hbool has.form).eq_written has.admitted).symm

/-- Six spare bits of a buffer are ignored and come back as zero. -/
theorem encodeUpTo_of_decode_padded :
    let entry := tuple [bool, bool, string]
    let bytes : Bytes := [0xd5, 0, 3, 0, 1, 0x61]
    let w := Value.tuple [.bool true, .bool true, .str "a"]
    entry.Valid ∧ entry.decode bytes = .ok w ∧ bytes.length ≤ 6 ∧
      ∃ again, entry.encodeUpTo 6 w = .ok again ∧ again.length = bytes.length ∧
        entry.decode again = .ok w ∧ (entry.NoBool → again = bytes) ∧
        again = written (entry.layout w) ∧ Admitted (entry.layout w) bytes ∧
        Everywhere LaidOutHere entry w := by
  intro entry bytes w
  have hvalid : entry.Valid := by
    refine .intro ⟨trivial, trivial⟩ ?_
    intro c hc
    rcases List.mem_cons.mp hc with rfl | hc
    · exact WellFormed.valid (wellFormed_leaf rfl trivial)
    · rcases List.mem_pair.mp hc with rfl | rfl
      · exact WellFormed.valid (wellFormed_leaf rfl trivial)
      · exact WellFormed.valid (wellFormed_leaf rfl trivial)
  have hdecode : entry.decode bytes = .ok w := by decide +kernel
  exact ⟨hvalid, hdecode, by decide, encodeUpTo_of_decode hvalid hdecode (by decide)⟩

end Descriptor

end AvmSandbox
