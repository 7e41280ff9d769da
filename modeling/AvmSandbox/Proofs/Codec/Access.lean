import AvmSandbox.Proofs.Codec.Edits

/-! # Access — operations by what a value is made of

    The operations on an encoded value look at the form of its native value,
    which is not settled by its type.  What they do can be said without it: by
    the components of a sequence, and by the content of a byte string.

    * `item_of_inOrder`, `field_of_inOrder`, `change_replaceItem_of_inOrder`:
      sequences, by their components in order;
    * `HasContent`, with `item_of_hasContent` and `replaceItem_of_hasContent`:
      byte strings, given as bytes or as a list of numbers. -/

namespace AvmSandbox

/-- A number that is taken as a byte is that byte. -/
theorem Value.eq_toNat_of_asByte {n : Nat} {b : UInt8} (h : (Value.uint n).asByte = .ok b) :
    n = b.toNat := by
  by_cases hn : n < UInt64.size
  · have hword : (Value.uint n).asU64 = .ok (UInt64.ofNat n) := by
      rw [asU64, u64?, if_pos hn]
    have hback : (UInt64.ofNat n).toNat = n := UInt64.toNat_ofNat_of_lt hn
    rw [asByte, hword] at h
    dsimp only at h
    split at h
    · next hle =>
        cases h
        rw [UInt64.toNat_toUInt8, hback, Nat.mod_eq_of_lt]
        rw [hback] at hle
        exact Nat.lt_succ_of_le hle
    · cases h
  · rw [asByte, asU64, u64?, if_neg hn] at h
    cases h

/-- A byte can be taken back from its number. -/
theorem Value.asByte_toNat (b : UInt8) : (Value.uint b.toNat).asByte = .ok b := by
  have hlt := b.toNat_lt
  have hsize : b.toNat < UInt64.size := Nat.lt_trans hlt (by decide)
  have hback : (UInt64.ofNat b.toNat).toNat = b.toNat := UInt64.toNat_ofNat_of_lt hsize
  rw [asByte, asU64, u64?, if_pos hsize]
  dsimp only
  rw [hback, if_pos (show b.toNat ≤ Limits.oneByte from Nat.le_of_lt_succ hlt)]
  refine congrArg Except.ok (UInt8.toNat_inj.mp ?_)
  rw [UInt64.toNat_toUInt8, hback, Nat.mod_eq_of_lt hlt]

namespace EncodedValue

open Encoding Descriptor

variable {e : EncodedValue} {items : List Value} {index : Nat}

/-- An index is checked against the length. -/
theorem checkIndex_of_length {n : Nat} (h : e.length = .ok n) (index : Nat) :
    e.checkIndex index = if index < n then .ok n else .error (.indexOutOfBounds index n) := by
  rw [checkIndex, h]
  by_cases hlt : index < n
  · rw [if_pos hlt]
    exact if_neg (Nat.not_le.mpr hlt)
  · rw [if_neg hlt]
    exact if_pos (Nat.not_lt.mp hlt)

/-- The component of a value that holds components is the one at its place. -/
theorem item_of_elements {n : Nat} {t : Descriptor} {v : Value} (hlength : e.length = .ok n)
    (hindex : index < n) (htype : e.itemType index n = .ok t)
    (helements : e.native.elements = .ok items) (hv : items[index]? = some v) :
    e.item index = encode t v := by
  obtain ⟨type, bytes, native⟩ := e
  rw [item, checkIndex_of_length hlength, if_pos hindex, ok_bind, htype, ok_bind]
  cases native with
  | list _ | tuple _ | struct _ =>
      cases helements
      simp only [Value.elements, ok_bind, pure_bind, hv]
  | _ => cases helements

theorem item_of_length_le {n : Nat} (hlength : e.length = .ok n) (h : n ≤ index) :
    e.item index = .error (.indexOutOfBounds index n) := by
  rw [item, checkIndex_of_length hlength, if_neg (Nat.not_lt.mpr h)]
  rfl

/-- Replacing a field's value by its place, or in the row of values. -/
private theorem zip_set_values (fields : List (String × Value)) (x : Value) (index : Nat)
    (f : String × Value) (hf : fields[index]? = some f) :
    fields.set index (f.1, x)
      = (fields.map Prod.fst).zip ((fields.map Prod.snd).set index x) := by
  induction fields generalizing index with
  | nil => cases hf
  | cons g fields ih =>
      cases index with
      | zero =>
          cases hf
          show (f.1, x) :: fields = (f.1, x) :: (fields.map Prod.fst).zip (fields.map Prod.snd)
          rw [← List.unzip_fst, ← List.unzip_snd, List.zip_unzip]
      | succ index => exact congrArg (g :: ·) (ih index hf)

/-- A component is replaced within the same container. -/
theorem setItem_of_elements {native : Value} (h : native.elements = .ok items) (length : Nat)
    (x : Value) : setItem native index length x =
      if index < items.length then .ok (withItems (items.set index x) native)
      else .error (.indexOutOfBounds index length) := by
  cases native with
  | list _ | tuple _ =>
      cases h
      rw [setItem]
      rfl
  | struct fields =>
      cases h
      rw [setItem, List.length_map]
      by_cases hlt : index < fields.length
      · have hf : fields[index]? = some fields[index] := List.getElem?_eq_getElem hlt
        rw [hf, if_pos hlt, withItems, ← zip_set_values fields x index _ hf]
        rfl
      · rw [List.getElem?_eq_none (Nat.not_lt.mp hlt), if_neg hlt]
        rfl
  | _ => cases h

/-! ## Sequences -/

/-- A sequence has as many components as its native value holds. -/
theorem length_of_inOrder (ht : e.type.isSequence = true) (h : e.type.InOrder e.native items) :
    e.length = .ok items.length := by
  have hcount := takesCount_of_rowItems h.rowItems
  have hitems := h.rowItems
  obtain ⟨type, bytes, native⟩ := e
  cases type with
  | staticArray _ _ | tuple _ | struct _ _ =>
      rw [length]
      exact congrArg Except.ok hcount.symm
  | dynamicArray _ =>
      cases native with
      | list _ =>
          cases hitems
          rfl
      | _ => cases hitems
  | _ => cases ht

theorem itemType_of_rowTypes {n : Nat} {t : Descriptor} (ht : e.type.isSequence = true)
    (h : (e.type.rowTypes n)[index]? = some t) : e.itemType index n = .ok t := by
  obtain ⟨type, bytes, native⟩ := e
  cases type with
  | staticArray _ _ | dynamicArray _ =>
      rw [List.eq_of_mem_replicate (List.mem_of_getElem? h)]
      rfl
  | tuple ts =>
      have h : ts[index]? = some t := h
      simp only [itemType, h]
  | struct _ fs =>
      have h : (fs.map Prod.snd)[index]? = some t := h
      rw [List.getElem?_map, Option.map_eq_some_iff] at h
      obtain ⟨f, hf, rfl⟩ := h
      simp only [itemType, hf]
  | _ => cases ht

/-- A component of a sequence is encoded as the type in its place. -/
theorem item_of_inOrder {t : Descriptor} {v : Value} (ht : e.type.isSequence = true)
    (h : e.type.InOrder e.native items) (htype : (e.type.rowTypes items.length)[index]? = some t)
    (hv : items[index]? = some v) : e.item index = encode t v :=
  item_of_elements (length_of_inOrder ht h) (List.getElem?_eq_some_iff.mp hv).1
    (itemType_of_rowTypes ht htype) h.elements hv

/-- A field of a struct whose native value has fields is the component in its place. -/
theorem field_of_inOrder {struct name : String} {fs : List (String × Descriptor)}
    {given : List (String × Value)} {f : String × Descriptor} (htype : e.type = .struct struct fs)
    (hnative : e.native = .struct given) (h : e.type.InOrder e.native items)
    (hfind : (fs.find? fun f => f.1 == name) = some f) (hindex : fs[index]? = some f) :
    ∃ v, items[index]? = some v ∧ e.field name = encode f.2 v := by
  have hitems := h.rowItems
  rw [htype, hnative] at hitems
  obtain ⟨v, hv, hnamed⟩ := exists_getElem?_of_mapM hitems hindex
  have hname := List.find?_some hfind
  rw [beq_iff_eq] at hname
  rw [hname] at hnamed
  refine ⟨v, hv, ?_⟩
  rw [field, htype]
  dsimp only
  rw [hfind, hnative]
  show (Value.named name given >>= encode f.2) = _
  rw [hnamed, ok_bind]

/-- Replacing a component of a sequence asks for the same value with another component. -/
theorem change_replaceItem_of_inOrder (ht : e.type.isSequence = true)
    (h : e.type.InOrder e.native items) (x : Value) :
    (Edit.replaceItem index x).change e =
      if index < items.length then .ok (withItems (items.set index x) e.native)
      else .error (.indexOutOfBounds index items.length) := by
  rw [Edit.change, checkIndex_of_length (length_of_inOrder ht h)]
  by_cases hlt : index < items.length
  · rw [if_pos hlt, if_pos hlt, ok_bind, setItem_of_elements h.elements, if_pos hlt]
  · rw [if_neg hlt, if_neg hlt]
    rfl

end EncodedValue

/-! ## Byte strings -/

namespace Descriptor

open Encoding

variable {t : Descriptor} {v : Value} {bytes : Bytes}

/-- Byte strings of either kind. -/
def isByteString : Descriptor → Bool
  | dynamicBytes | staticBytes _ => true
  | _ => false

theorem isSequence_of_isByteString (ht : t.isByteString = true) : t.isSequence = false := by
  cases t with
  | dynamicBytes | staticBytes _ => rfl
  | _ => cases ht

/-- Of a byte string, only the content is encoded. -/
theorem yields_byteString_iff (ht : t.isByteString = true) :
    Yields (t.encodeIn v) none bytes none ↔
      ∃ content, byteContent v = .ok content ∧
        Yields (t.encodeIn (.bytes content)) none bytes none := by
  cases t with
  | dynamicBytes | staticBytes _ =>
      rw [encodeIn, yields_lift_bind]
      simp only [encodeIn, yields_lift_bind, byteContent, Except.ok.injEq, exists_eq_left']
  | _ => cases ht

theorem encodeUpTo_byteString_iff {max : Nat} (ht : t.isByteString = true) :
    t.encodeUpTo max v = .ok bytes ↔
      ∃ content, byteContent v = .ok content ∧ t.encodeUpTo max (.bytes content) = .ok bytes := by
  simp only [encodeUpTo_eq_ok_iff]
  rw [yields_byteString_iff ht]
  constructor
  · rintro ⟨⟨content, hcontent, hyields⟩, hle⟩
    exact ⟨content, hcontent, hyields, hle⟩
  · rintro ⟨content, hcontent, hyields, hle⟩
    exact ⟨⟨content, hcontent, hyields⟩, hle⟩

theorem takesCount_of_yields_bytes {content : Bytes} {n : Nat}
    (h : Yields ((staticBytes n).encodeIn (.bytes content)) none bytes none) :
    content.length = n := by
  rw [encodeIn, yields_lift_bind] at h
  obtain ⟨content', hcontent, h⟩ := h
  cases hcontent
  exact not_not.mp (yields_unless.mp h).1

/-- The content of a byte string can be told from its encoding. -/
theorem content_unique {content content' : Bytes} (ht : t.isByteString = true)
    (h : Yields (t.encodeIn (.bytes content)) none bytes none)
    (h' : Yields (t.encodeIn (.bytes content')) none bytes none) : content = content' := by
  cases t with
  | dynamicBytes =>
      have hwritten : ∀ {c : Bytes}, Yields (dynamicBytes.encodeIn (.bytes c)) none bytes none →
          bytes = counted c := fun h =>
        ((yields_encodeIn_leaf (t := dynamicBytes) (v := .bytes _) rfl rfl trivial
          trivial).mp h).2.1
      refine (List.append_inj ((hwritten h).symm.trans (hwritten h')) ?_).2
      rw [Bytes.length_ofNat, Bytes.length_ofNat]
  | staticBytes n =>
      have hwritten : ∀ {c : Bytes}, Yields ((staticBytes n).encodeIn (.bytes c)) none bytes none →
          bytes = c := fun h =>
        ((yields_encodeIn_leaf (t := staticBytes n) (v := .bytes _) rfl rfl trivial
          (takesCount_of_yields_bytes h)).mp h).2.1
      exact (hwritten h).symm.trans (hwritten h')
  | _ => cases ht

end Descriptor

namespace EncodedValue

open Encoding Descriptor

variable {e : EncodedValue} {content : Bytes} {index : Nat}

/-- Whether an encoded value is a byte string with a content. -/
structure HasContent (e : EncodedValue) (content : Bytes) : Prop where
  type : e.type.isByteString = true
  native : byteContent e.native = .ok content
  yields : ∃ bytes, Yields (e.type.encodeIn (.bytes content)) none bytes none

theorem length_of_hasContent (h : e.HasContent content) : e.length = .ok content.length := by
  obtain ⟨type, bytes, native⟩ := e
  obtain ⟨ht, hnative, written, hyields⟩ := h
  cases type with
  | staticBytes n =>
      rw [length]
      exact congrArg Except.ok (takesCount_of_yields_bytes hyields).symm
  | dynamicBytes =>
      cases native with
      | bytes _ =>
          cases hnative
          rfl
      | list items =>
          have hnative : items.mapM Value.asByte = .ok content := hnative
          rw [length_of_mapM hnative]
          rfl
      | _ => cases hnative
  | _ => cases ht

theorem itemType_of_isByteString {n : Nat} (ht : e.type.isByteString = true) :
    e.itemType index n = .ok byte := by
  obtain ⟨type, bytes, native⟩ := e
  cases type with
  | dynamicBytes | staticBytes _ => rfl
  | _ => cases ht

/-- A byte of a byte string is encoded as a number, also when it was given as one. -/
theorem item_of_hasContent {b : UInt8} (h : e.HasContent content) (hb : content[index]? = some b)
    (hnumbers : ∀ items v, e.native = .list items → items[index]? = some v → ∃ n, v = .uint n) :
    e.item index = encode byte (.uint b.toNat) := by
  have hlength := length_of_hasContent h
  have hindex : index < content.length := (List.getElem?_eq_some_iff.mp hb).1
  have htype : e.itemType index content.length = .ok byte := itemType_of_isByteString h.type
  have hcontent := h.native
  cases hnative : e.native with
  | bytes raw =>
      rw [hnative] at hcontent
      cases hcontent
      rw [item, checkIndex_of_length hlength, if_pos hindex, ok_bind, htype, ok_bind, hnative]
      simp only [pure_bind, hb, Option.map_some]
  | list items =>
      rw [hnative] at hcontent
      have hcontent : items.mapM Value.asByte = .ok content := hcontent
      obtain ⟨v, hv⟩ : ∃ v, items[index]? = some v := by
        rw [length_of_mapM hcontent] at hindex
        exact ⟨_, List.getElem?_eq_getElem hindex⟩
      obtain ⟨n, rfl⟩ := hnumbers items v hnative hv
      obtain ⟨b', hb', hbyte⟩ := exists_getElem?_of_mapM hcontent hv
      cases hb.symm.trans hb'
      rw [← Value.eq_toNat_of_asByte hbyte]
      exact item_of_elements hlength hindex htype (by rw [hnative]; rfl) hv
  | _ =>
      rw [hnative] at hcontent
      cases hcontent

/-- Replacing a byte encodes the content with another byte, in either form. -/
theorem replaceItem_of_hasContent {bytes : Bytes} (h : e.HasContent content) (x : Value) :
    ((Edit.replaceItem index x).change e >>= e.type.encode) = .ok bytes ↔
      index < content.length ∧
        ∃ b, x.asByte = .ok b ∧ e.type.encode (.bytes (content.set index b)) = .ok bytes := by
  rw [Edit.change, checkIndex_of_length (length_of_hasContent h)]
  by_cases hlt : index < content.length
  · rw [if_pos hlt, ok_bind, bind_eq_ok_iff]
    have hcontent := h.native
    cases hnative : e.native with
    -- bytes are written in place
    | bytes raw =>
        rw [hnative] at hcontent
        cases hcontent
        constructor
        · rintro ⟨native, hset, hbytes⟩
          obtain ⟨b, hb, hset⟩ := bind_eq_ok_iff.mp hset
          rw [if_pos hlt] at hset
          cases hset
          exact ⟨hlt, b, hb, hbytes⟩
        · rintro ⟨-, b, hb, hbytes⟩
          refine ⟨_, bind_eq_ok_iff.mpr ⟨b, hb, ?_⟩, hbytes⟩
          rw [if_pos hlt]
          rfl
    -- a list is encoded anew, so each of its items has to be a byte
    | list items =>
        rw [hnative] at hcontent
        have hcontent : items.mapM Value.asByte = .ok content := hcontent
        have hlt' : index < items.length := length_of_mapM hcontent ▸ hlt
        rw [setItem_of_elements (show (Value.list items).elements = .ok items from rfl),
          if_pos hlt']
        constructor
        · rintro ⟨native, hset, hbytes⟩
          cases hset
          obtain ⟨changed, hchanged, hbytes⟩ := (encodeUpTo_byteString_iff h.type).mp hbytes
          obtain ⟨b, hb, rfl⟩ := (mapM_set_eq_ok_iff hcontent hlt').mp hchanged
          exact ⟨hlt, b, hb, hbytes⟩
        · rintro ⟨-, b, hb, hbytes⟩
          refine ⟨_, rfl, (encodeUpTo_byteString_iff h.type).mpr ⟨_, ?_, hbytes⟩⟩
          exact (mapM_set_eq_ok_iff hcontent hlt').mpr ⟨b, hb, rfl⟩
    | _ =>
        rw [hnative] at hcontent
        cases hcontent
  · rw [if_neg hlt]
    refine iff_of_false (fun h => ?_) (fun h => hlt h.1)
    cases h

end EncodedValue

end AvmSandbox
