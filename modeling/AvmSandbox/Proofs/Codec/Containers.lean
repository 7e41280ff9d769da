import AvmSandbox.Proofs.Codec.Access
import AvmSandbox.Proofs.Codec.Proper

/-! # Containers — members that are shown one by one

    Arrays, tuples, structs and byte strings have components, each with a type of
    its own.  Which ones a value has is settled by its type and its native value
    together, once the value is known to be of the kind that decoding produces.

    * `Descriptor.Held`: a value that can be held encoded, and
      `EncodedValue.Opened`: where such values come from;
    * `Descriptor.members`: the components with their types, which are held
      themselves (`Held.member`);
    * `encode_of_held`, `encode_again`: values that are encoded as they are;
    * `shows_members`: the operations give the members, encoded. -/

namespace AvmSandbox

namespace Descriptor

open Encoding

variable {t : Descriptor} {v w : Value} {bytes : Bytes}

/-! ## Values that can be held -/

/-- Whether a value can be held encoded: it is of the kind that decoding produces, and its
    encoding by value is not longer than a byte string may be. -/
structure Held (t : Descriptor) (v : Value) : Prop where
  wellFormed : t.WellFormed
  proper : t.Proper v
  short : (t.layout v).length ≤ Limits.byteString

theorem Held.encode (h : t.Held v) : t.encode v = .ok (written (t.layout v)) :=
  encode_eq_layout h.proper.form h.proper.fits h.short

/-- The canonical form of what is encoded, in whatever layout of references, is proper. -/
theorem proper_of_yields {before after : Layout} (hvalid : t.Valid) (hv : t.HasVariants v)
    (h : Yields (t.encodeIn v) before bytes after) (hw : t.canonical v = .ok w) : t.Proper w := by
  have hform := hasForm_of_yields hv h
  exact proper_of_canonical hvalid hform (representable_of_yields hform h) hw

/-- The canonical form of what is encoded by value is held. -/
theorem held_of_encodeUpTo {max : Nat} (hwf : t.WellFormed) (hv : t.HasVariants v)
    (h : t.encodeUpTo max v = .ok bytes) (hsize : bytes.length ≤ Limits.byteString)
    (hw : t.canonical v = .ok w) : t.Held w := by
  obtain ⟨hyields, -⟩ := encodeUpTo_eq_ok_iff.mp h
  have hproper := proper_of_yields hwf.valid hv hyields hw
  obtain ⟨w', hw', hagain, -⟩ := canonical_of_yields hwf.valid hyields
  cases hw.symm.trans hw'
  refine ⟨hwf, hproper, ?_⟩
  rw [← length_written, ← eq_layout_of_yields hproper.form hagain]
  exact hsize

/-- Of a value that is encoded, each entry can be encoded by itself. -/
theorem exists_encode_inside {c : Descriptor × Value} (hv : t.HasVariants v)
    (h : t.encode v = .ok bytes) (hc : c ∈ t.entries v) :
    ∃ inside, c.1.encode c.2 = .ok inside := by
  have hform := hasForm_of_yields hv (encodeUpTo_eq_ok_iff.mp h).1
  obtain ⟨hfits, hle, -⟩ := (encodeUpTo_eq_ok_iff_layout hform (by decide)).1.mp h
  exact ⟨_, encode_eq_layout (hform.inside hc) (hfits.inside hc)
    (length_layout_inside hform hle (by decide) hc)⟩

/-! ## Members -/

/-- Arrays, tuples and structs, and the two kinds of byte strings. -/
def isContainer (t : Descriptor) : Bool := t.isSequence || t.isByteString

/-- The components of a container, each with its type. -/
def members : Descriptor → Value → List (Descriptor × Value)
  | dynamicBytes, .bytes content | staticBytes _, .bytes content =>
      content.map fun b => (byte, .uint b.toNat)
  | t, v => t.entries v

theorem members_sequence (ht : t.isSequence = true) (v : Value) : t.members v = t.entries v := by
  cases t with
  | staticArray _ _ | dynamicArray _ | tuple _ | struct _ _ => rfl
  | _ => cases ht

theorem members_bytes (ht : t.isByteString = true) (content : Bytes) :
    t.members (.bytes content) = content.map fun b => (byte, .uint b.toNat) := by
  cases t with
  | dynamicBytes | staticBytes _ => rfl
  | _ => cases ht

/-- A row that makes up a sequence is what the sequence shows. -/
theorem members_rowValue {items : List Value} (ht : t.isSequence = true) (hnames : t.NamesDistinct)
    (htakes : t.TakesCount items.length) :
    t.members (t.rowValue items) = (t.rowTypes items.length).zip items :=
  (members_sequence ht _).trans
    (entries_eq_zip (variantHere_rowValue ht items) (rowItems_rowValue ht hnames htakes))

theorem hasVariants_rowValue {items : List Value} (ht : t.isSequence = true)
    (h : ∀ c ∈ t.members (t.rowValue items), c.1.HasVariants c.2) :
    t.HasVariants (t.rowValue items) := by
  rw [members_sequence ht] at h
  exact .intro (variantHere_rowValue ht items) h

/-- The canonical form of a sequence has the canonical forms of its members. -/
theorem canonical_rowValue_eq_ok_iff {items : List Value} (ht : t.isSequence = true)
    (hnames : t.NamesDistinct) (htakes : t.TakesCount items.length) :
    t.canonical (t.rowValue items) = .ok w ↔
      ∃ ws, (t.members (t.rowValue items)).mapM (fun c => c.1.canonical c.2) = .ok ws ∧
        w = t.rowValue ws := by
  rw [canonical_sequence_eq_ok_iff ht (variantHere_rowValue ht items)
    (rowItems_rowValue ht hnames htakes), members_rowValue ht hnames htakes]
  simp only [canonicalRow_eq_mapM]

/-- A sequence that is held is made up of its components in order. -/
theorem Held.sequence (ht : t.isSequence = true) (h : t.Held v) :
    ∃ items, v = t.rowValue items ∧ t.TakesCount items.length ∧
      t.members v = (t.rowTypes items.length).zip items ∧
      (t.members v).mapM (fun c => c.1.canonical c.2) = .ok items ∧
      ∀ c ∈ t.members v, c.1.Proper c.2 := by
  have hvariant := h.proper.form.here.1
  obtain ⟨items, hitems⟩ := (arityHere_iff ht hvariant).mp h.proper.form.here.2
  have hmembers : t.members v = (t.rowTypes items.length).zip items :=
    (members_sequence ht v).trans (entries_eq_zip hvariant hitems)
  obtain ⟨hv, hall⟩ := h.proper.eq_rowValue ht h.wellFormed.here.names hitems
  have htakes := takesCount_of_rowItems hitems
  have hcanonical := (canonicalRow_eq_self_iff (length_rowTypes ht htakes).symm).mpr
    fun c hc => (hall c hc).canonical
  rw [canonicalRow_eq_mapM] at hcanonical
  rw [hmembers]
  exact ⟨items, hv, htakes, rfl, hcanonical, hall⟩

theorem Held.byteString (ht : t.isByteString = true) (h : t.Held v) :
    ∃ content, v = .bytes content := by
  have hvariant := h.proper.form.here.1
  cases t with
  | dynamicBytes | staticBytes _ =>
      cases v with
      | bytes content => exact ⟨content, rfl⟩
      | _ => exact hvariant.elim
  | _ => cases ht

theorem HasForm.hasVariants (h : t.HasForm v) : t.HasVariants v := h.mono fun _ _ h => h.1

theorem held_byte (b : UInt8) : byte.Held (.uint b.toNat) := by
  refine ⟨wellFormed_leaf rfl trivial, proper_leaf rfl trivial trivial b.toNat_lt, ?_⟩
  have hlength : (byte.layout (.uint b.toNat)).length = 1 := by
    rw [layout_leaf rfl, leafOctets, length_solids]
    · rfl
    · simp
  rw [hlength]
  decide

/-- The members of a value that is held can be held by themselves. -/
theorem Held.member {c : Descriptor × Value} (ht : t.isContainer = true) (h : t.Held v)
    (hc : c ∈ t.members v) : c.1.Held c.2 := by
  cases hseq : t.isSequence with
  | true =>
      obtain ⟨items, -, -, -, -, hproper⟩ := h.sequence hseq
      have hentry : c ∈ t.entries v := members_sequence hseq v ▸ hc
      refine ⟨h.wellFormed.inside (mem_inner_of_mem_entries hentry), hproper c hc, ?_⟩
      exact length_layout_inside h.proper.form h.short (by decide) hentry
  | false =>
      have hbytes : t.isByteString = true := by simpa [isContainer, hseq] using ht
      obtain ⟨content, rfl⟩ := h.byteString hbytes
      rw [members_bytes hbytes] at hc
      obtain ⟨b, -, rfl⟩ := List.mem_map.mp hc
      exact held_byte b

end Descriptor

namespace EncodedValue

open Encoding Descriptor

variable {e e' : EncodedValue} {t : Descriptor} {v x : Value} {index : Nat}

/-! ## Where held values come from -/

/-- The encoded values that were decoded from bytes, or encoded from a value of the variants that
    decoding produces, with references by value or by index.  Components and edits are encoded by
    value, so it is that encoding which is not longer than a byte string may be. -/
inductive Opened : EncodedValue → Prop where
  | decoded {framing : Framing} {type : Descriptor} {buffer : Bytes} {e : EncodedValue}
      (hwf : type.WellFormed) (h : decode framing type buffer = .ok e)
      (hsize : e.bytes.length ≤ Limits.byteString) : Opened e
  | encoded {max : Nat} {type : Descriptor} {v : Value} {e : EncodedValue}
      (hwf : type.WellFormed) (hv : type.HasVariants v) (h : encodeUpTo max type v = .ok e)
      (hsize : e.bytes.length ≤ Limits.byteString) : Opened e
  | decodedByIndex {refs : References} {type : Descriptor} {bytes : Bytes} {native : Value}
      (hwf : type.WellFormed) (h : type.decodeIn (some refs) bytes = .ok native)
      (hsize : (type.layout native).length ≤ Limits.byteString) : Opened ⟨type, bytes, native⟩
  | encodedByIndex {refs : References} {after : Layout} {max : Nat} {type : Descriptor} {v : Value}
      {e : EncodedValue} (hwf : type.WellFormed) (hv : type.HasVariants v)
      (h : Yields (encodeWithin max type v) (some refs) e after)
      (hsize : (type.layout e.native).length ≤ Limits.byteString) : Opened e

theorem Opened.held (h : Opened e) : e.type.Held e.native := by
  cases h with
  | decoded hwf h hsize =>
      obtain ⟨bytes, -, h⟩ := bind_eq_ok_iff.mp h
      obtain ⟨native, hnative, h⟩ := bind_eq_ok_iff.mp h
      obtain rfl := pure_eq_ok_iff.mp h
      have hread := readAs_of_decodeIn hwf.valid hnative
      refine ⟨hwf, proper_of_decodeIn hwf.valid hnative, ?_⟩
      rw [← hread.admitted.length_eq]
      exact hsize
  | encoded hwf hv h hsize =>
      obtain ⟨rfl, hbytes, hnative⟩ := of_encodeUpTo h
      exact held_of_encodeUpTo hwf hv hbytes hsize hnative
  | decodedByIndex hwf h hsize => exact ⟨hwf, proper_of_decodeIn hwf.valid h, hsize⟩
  | encodedByIndex hwf hv h hsize =>
      obtain ⟨rfl, hyields, -, hnative⟩ := encodeWithin_yields_iff.mp h
      exact ⟨hwf, proper_of_yields hwf.valid hv hyields hnative, hsize⟩

/-! ## Encoding what is held -/

/-- What is held is encoded as it is. -/
theorem encode_of_held (h : t.Held v) : encode t v = .ok ⟨t, written (t.layout v), v⟩ :=
  encode_eq_ok_iff.mpr ⟨rfl, h.encode, h.proper.canonical⟩

/-- Whatever can be encoded is encoded like its canonical form. -/
theorem encode_again (hwf : t.WellFormed) (hx : t.HasVariants x) {bytes : Bytes}
    (h : t.encode x = .ok bytes) :
    ∃ c, encode t x = .ok c ∧ encode t c.native = .ok c := by
  obtain ⟨u, hu, -, hagain⟩ := exists_canonical_of_encodeUpTo hwf hx h
  have hheld := held_of_encodeUpTo hwf hx h (encodeUpTo_eq_ok_iff.mp h).2 hu
  exact ⟨⟨t, bytes, u⟩, encode_eq_ok_iff.mpr ⟨rfl, h, hu⟩,
    encode_eq_ok_iff.mpr ⟨rfl, hagain, hheld.proper.canonical⟩⟩

/-! ## What a container shows -/

/-- Whether an encoded value shows a row of members: it has as many components, and each of them
    is one of the members, encoded. -/
structure Shows (e : EncodedValue) (cs : List (Descriptor × Value)) : Prop where
  length : e.length = .ok cs.length
  component : ∀ {index : Nat} {c : Descriptor × Value}, cs[index]? = some c →
    e.itemType index cs.length = .ok c.1 ∧ e.item index = encode c.1 c.2

theorem shows_sequence (ht : e.type.isSequence = true) (h : e.type.Held e.native) :
    e.Shows (e.type.members e.native) := by
  obtain ⟨items, hnative, htakes, hmembers, -, -⟩ := h.sequence ht
  have horder : e.type.InOrder e.native items := by
    rw [hnative]
    exact inOrder_rowValue ht h.wellFormed.here.names htakes
  have hcount : (e.type.members e.native).length = items.length := by
    rw [hmembers, List.length_zip, length_rowTypes ht htakes, Nat.min_self]
  refine ⟨hcount ▸ length_of_inOrder ht horder, ?_⟩
  intro index c hc
  rw [hmembers] at hc
  obtain ⟨htype, hitem⟩ := List.getElem?_zip_eq_some.mp hc
  exact ⟨itemType_of_rowTypes ht (hcount.symm ▸ htype), item_of_inOrder ht horder htype hitem⟩

theorem shows_byteString (ht : e.type.isByteString = true) (h : e.type.Held e.native) :
    e.Shows (e.type.members e.native) := by
  obtain ⟨content, hnative⟩ := h.byteString ht
  have hcontent : e.HasContent content := by
    refine ⟨ht, by rw [hnative]; rfl, written (e.type.layout e.native), ?_⟩
    rw [← hnative]
    exact (encodeUpTo_eq_ok_iff.mp h.encode).1
  have hmembers : e.type.members e.native = content.map fun b => (byte, .uint b.toNat) := by
    rw [hnative]
    exact members_bytes ht content
  rw [hmembers]
  refine ⟨by rw [List.length_map]; exact length_of_hasContent hcontent, ?_⟩
  intro index c hc
  rw [List.getElem?_map, Option.map_eq_some_iff] at hc
  obtain ⟨b, hb, rfl⟩ := hc
  refine ⟨itemType_of_isByteString ht, item_of_hasContent hcontent hb ?_⟩
  intro items v hlist
  rw [hnative] at hlist
  cases hlist

/-- **A CONTAINER SHOWS ITS MEMBERS.** -/
theorem shows_members (ht : e.type.isContainer = true) (h : e.type.Held e.native) :
    e.Shows (e.type.members e.native) := by
  cases hseq : e.type.isSequence with
  | true => exact shows_sequence hseq h
  | false => exact shows_byteString (by simpa [isContainer, hseq] using ht) h

end EncodedValue

end AvmSandbox
