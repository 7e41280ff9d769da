import AvmSandbox.Encoded
import AvmSandbox.Proofs.Codec.Exactness

/-! # Built values — bytes that decode

    An encoded value keeps bytes and a native value side by side.  However it was
    made, and however it was edited, also when the edit has failed, the bytes
    decode as its type.  An encoding of a static type takes up the length of the
    type, so that its end is found without decoding it.

    * `length_of_decode`: what decodes as a static type has its length;
    * `EncodedValue.Sound`: the bytes decode as the type;
    * `EncodedValue.Built`: how encoded values are made without references by
      index, and `Built.sound`, by induction on it. -/

namespace AvmSandbox

namespace Descriptor

open Encoding

variable {t : Descriptor} {bytes : Bytes} {v : Value}

/-! ## Lengths -/

/-- Rows of components with a length have one. -/
theorem exists_rowLength {ws : List Width} (h : ∀ w ∈ ws, w ≠ .free) (run : Nat) :
    ∃ n, rowLength run ws = some n := by
  induction ws generalizing run with
  | nil => exact ⟨0, rfl⟩
  | cons w ws ih =>
      rw [List.forall_mem_cons] at h
      cases w with
      | free => exact absurd rfl h.1
      | bit =>
          obtain ⟨n, hn⟩ := ih h.2 ((run + 1) % 8)
          exact ⟨_, by rw [rowLength, hn, Option.map_some]⟩
      | bytes count =>
          obtain ⟨n, hn⟩ := ih h.2 0
          exact ⟨_, by rw [rowLength, hn, Option.map_some]⟩

/-- A row of static types that have lengths has one. -/
theorem exists_rowLength_widths {ts : List Descriptor}
    (h : ∀ t ∈ ts, ∃ n, t.fixedLength? = some n) : ∃ n, rowLength 0 (widths false ts) = some n := by
  refine exists_rowLength (fun w hw => ?_) 0
  rw [widths_eq] at hw
  obtain ⟨t, ht, rfl⟩ := List.mem_map.mp hw
  obtain ⟨n, hn⟩ := h t ht
  rw [show t.length? false = some n from hn]
  cases hb : t.isBool with
  | true => simp [hb]
  | false => simp [hb]

theorem static_of_mem {ts : List Descriptor} (h : anyDynamic ts = false) (ht : t ∈ ts) :
    t.isDynamic = false :=
  Bool.eq_false_iff.mpr fun hd => Bool.eq_false_iff.mp h (anyDynamic_iff.mpr ⟨t, ht, hd⟩)

/-- A static type has a length unless it is an array too long for any memory. -/
theorem length_or_array_of_static (hwf : t.WellFormed) (hstatic : t.isDynamic = false) :
    (∃ n, t.fixedLength? = some n) ∨
      ∃ element count size, t = staticArray element count ∧ element.isBool = false ∧
        element.isDynamic = false ∧ element.fixedLength? = some size ∧
          Limits.length ≤ size * count := by
  have hsized := hwf.here.sized
  cases t with
  | staticArray element count =>
      rw [isDynamic] at hstatic
      obtain ⟨size, hsize⟩ := hsized element (List.mem_singleton_self _) hstatic
      cases hb : element.isBool with
      | true => exact .inl ⟨_, by rw [fixedLength?, length?, if_pos hb]⟩
      | false =>
          by_cases hlt : size * count < Limits.length
          · refine .inl ⟨size * count, ?_⟩
            have hsize : element.length? false = some size := hsize
            rw [fixedLength?, length?, if_neg (by simp [hb]), hsize, Option.bind_some, if_pos hlt]
          · exact .inr ⟨element, count, size, rfl, hb, hstatic, hsize, Nat.not_lt.mp hlt⟩
  | tuple ts =>
      left
      rw [isDynamic] at hstatic
      rw [fixedLength?, length?]
      exact exists_rowLength_widths fun t ht => hsized t ht (static_of_mem hstatic ht)
  | struct name fs =>
      left
      rw [isDynamic, anyFieldDynamic_eq] at hstatic
      rw [fixedLength?, length?, fieldWidths_eq]
      exact exists_rowLength_widths fun t ht => hsized t ht (static_of_mem hstatic ht)
  | string => cases hstatic
  | dynamicBytes => cases hstatic
  | dynamicArray element => cases hstatic
  | _ => exact .inl ⟨_, rfl⟩

/-- What decodes as a type that has a length has that length. -/
theorem length_of_decode {n : Nat} (hwf : t.WellFormed) (h : t.decode bytes = .ok v)
    (hn : t.fixedLength? = some n) : bytes.length = n := by
  have hreads := readAs_of_decodeIn hwf.valid h
  rw [hreads.admitted.length_eq, ← length_written]
  exact length_encodeIn hreads.yields hn

/-- What decodes as a static type without a length is longer than any memory. -/
theorem length_le_of_decode (hwf : t.WellFormed) (hstatic : t.isDynamic = false)
    (h : t.decode bytes = .ok v) (hnone : t.fixedLength? = none) :
    Limits.length ≤ bytes.length := by
  obtain ⟨n, hn⟩ | ⟨element, count, size, rfl, hb, hd, hsize, hle⟩ :=
    length_or_array_of_static hwf hstatic
  · rw [hnone] at hn
    cases hn
  · -- the decoder has checked the length of the row before it reads the first element
    rw [decode, decodeIn] at h
    split at h
    · cases h
    · next hchecked =>
        rw [not_or, leastRow, if_neg (by simp [hb]), if_neg (by simp [hd]), hsize] at hchecked
        exact Nat.le_trans hle (Nat.not_lt.mp hchecked.2)

end Descriptor

namespace EncodedValue

open Encoding

/-- Whether the type can be laid out and the bytes decode as it. -/
structure Sound (e : EncodedValue) : Prop where
  wellFormed : e.type.WellFormed
  decodes : ∃ v, e.type.decode e.bytes = .ok v

/-- The encoded values that are made with references by value, of types that can be laid out: by
    encoding, by decoding, as components of others, and by edits, whether or not they fail. -/
inductive Built : EncodedValue → Prop where
  | encoded {max : Nat} {type : Descriptor} {v : Value} {e : EncodedValue}
      (hwf : type.WellFormed) (h : encodeUpTo max type v = .ok e) : Built e
  | decoded {framing : Framing} {type : Descriptor} {buffer : Bytes} {e : EncodedValue}
      (hwf : type.WellFormed) (h : decode framing type buffer = .ok e) : Built e
  | item {index : Nat} {e e' : EncodedValue} (he : Built e) (h : e.item index = .ok e') : Built e'
  | field {name : String} {e e' : EncodedValue} (he : Built e) (h : e.field name = .ok e') :
      Built e'
  | replaced {e : EncodedValue} (index : Nat) (v : Value) (he : Built e) :
      Built ((replaceItem index v).run e).2
  | pushed {e : EncodedValue} (v : Value) (he : Built e) : Built ((push v).run e).2

variable {e e' : EncodedValue} {type : Descriptor} {v : Value}

/-! ## Encoding and decoding -/

/-- An encoded value keeps the type, the bytes and the canonical form of what was encoded. -/
theorem of_encodeUpTo {max : Nat} (h : encodeUpTo max type v = .ok e) :
    e.type = type ∧ type.encodeUpTo max v = .ok e.bytes ∧ type.canonical v = .ok e.native := by
  have hyields : Yields (encodeWithin max type v) none e ((encodeWithin max type v).run none).2 :=
    Prod.ext h rfl
  obtain ⟨bytes, middle, hbytes, hrest⟩ := yields_bind.mp hyields
  obtain ⟨native, hnative, hpure⟩ := yields_lift_bind.mp hrest
  obtain ⟨rfl, -⟩ := yields_pure.mp hpure
  exact ⟨rfl, congrArg Prod.fst hbytes, hnative⟩

/-- What the encoder answers is sound. -/
theorem sound_of_encodeUpTo {max : Nat} (hwf : type.WellFormed)
    (h : encodeUpTo max type v = .ok e) : e.Sound := by
  obtain ⟨rfl, hbytes, -⟩ := of_encodeUpTo h
  obtain ⟨w, hw, -⟩ := Descriptor.exists_decode_of_encodeUpTo hwf hbytes
  exact ⟨hwf, w, hw⟩

/-- What is decoded has the type that was asked for and the bytes that were given. -/
theorem ofBytes_eq_ok_iff {bytes : Bytes} :
    ofBytes type bytes = .ok e ↔
      e.type = type ∧ e.bytes = bytes ∧ type.decode bytes = .ok e.native := by
  constructor
  · intro h
    obtain ⟨_, hbytes, h⟩ := bind_eq_ok_iff.mp h
    obtain ⟨native, hnative, h⟩ := bind_eq_ok_iff.mp h
    cases hbytes
    obtain rfl := pure_eq_ok_iff.mp h
    exact ⟨rfl, rfl, hnative⟩
  · rintro ⟨rfl, rfl, h⟩
    exact bind_eq_ok_iff.mpr ⟨e.bytes, rfl, bind_eq_ok_iff.mpr ⟨e.native, h, rfl⟩⟩

/-- What the decoder answers is sound, in a log or out of one. -/
theorem sound_of_decode {framing : Framing} {buffer : Bytes} (hwf : type.WellFormed)
    (h : decode framing type buffer = .ok e) : e.Sound := by
  obtain ⟨bytes, -, h⟩ := bind_eq_ok_iff.mp h
  obtain ⟨native, hnative, h⟩ := bind_eq_ok_iff.mp h
  obtain rfl := pure_eq_ok_iff.mp h
  exact ⟨hwf, native, hnative⟩

/-! ## Components -/

theorem wellFormed_of_element? {t : Descriptor} (hwf : type.WellFormed)
    (h : type.element? = some t) : t.WellFormed := by
  cases type with
  | staticArray element _ =>
      cases h
      exact hwf.inside (List.mem_singleton_self _)
  | dynamicArray element =>
      cases h
      exact hwf.inside (List.mem_singleton_self _)
  | staticBytes _ =>
      cases h
      exact Descriptor.wellFormed_leaf rfl trivial
  | dynamicBytes =>
      cases h
      exact Descriptor.wellFormed_leaf rfl trivial
  | _ => cases h

theorem wellFormed_of_itemType {index length : Nat} {t : Descriptor} (hwf : e.type.WellFormed)
    (h : e.itemType index length = .ok t) : t.WellFormed := by
  rw [itemType] at h
  split at h
  · next ts htype =>
      rw [htype] at hwf
      split at h
      · next hget =>
          cases h
          exact hwf.inside (List.mem_of_getElem? hget)
      · cases h
  · next fs htype =>
      rw [htype] at hwf
      split at h
      · next hget =>
          cases h
          exact hwf.inside (List.mem_map_of_mem (List.mem_of_getElem? hget))
      · cases h
  · split at h
    · next helement =>
        cases h
        exact wellFormed_of_element? hwf helement
    · cases h

/-- A component that can be reached is encoded as a type that can be laid out. -/
theorem exists_encode_of_item {index : Nat} (hwf : e.type.WellFormed)
    (h : e.item index = .ok e') : ∃ type v, type.WellFormed ∧ encode type v = .ok e' := by
  obtain ⟨length, -, h⟩ := bind_eq_ok_iff.mp h
  obtain ⟨type, htype, h⟩ := bind_eq_ok_iff.mp h
  have hwf := wellFormed_of_itemType hwf htype
  dsimp only at h
  split at h
  · obtain ⟨_ | v, -, h⟩ := bind_eq_ok_iff.mp h
    · cases h
    · exact ⟨type, v, hwf, h⟩
  · obtain ⟨items, -, h⟩ := bind_eq_ok_iff.mp h
    obtain ⟨_ | v, -, h⟩ := bind_eq_ok_iff.mp h
    · cases h
    · exact ⟨type, v, hwf, h⟩

/-- A field is encoded anew, at a well-formed type. -/
theorem exists_encode_of_field {name : String} (hwf : e.type.WellFormed)
    (h : e.field name = .ok e') : ∃ type v, type.WellFormed ∧ encode type v = .ok e' := by
  rw [field] at h
  split at h
  · next fs htype =>
      rw [htype] at hwf
      split at h
      · next f hfind =>
          obtain ⟨v, -, h⟩ := bind_eq_ok_iff.mp h
          exact ⟨f.2, v, hwf.inside (List.mem_map_of_mem (List.mem_of_find?_eq_some hfind)), h⟩
      · cases h
  · cases h

/-- An item of a sound value is sound. -/
theorem sound_of_item {index : Nat} (he : e.Sound) (h : e.item index = .ok e') : e'.Sound := by
  obtain ⟨type, v, hwf, hencode⟩ := exists_encode_of_item he.wellFormed h
  exact sound_of_encodeUpTo hwf hencode

theorem sound_of_field {name : String} (he : e.Sound) (h : e.field name = .ok e') : e'.Sound := by
  obtain ⟨type, v, hwf, hencode⟩ := exists_encode_of_field he.wellFormed h
  exact sound_of_encodeUpTo hwf hencode

/-! ## Edits -/

/-- An edit replaces the bytes by an encoding, or fails before. -/
theorem sound_reencode (native : Value) (he : e.Sound) :
    Action.Ends (reencode native) e Sound := by
  rw [reencode, Action.ends_get_bind]
  refine Action.ends_lift_bind he fun bytes hbytes => ?_
  obtain ⟨w, hw, -⟩ := Descriptor.exists_decode_of_encodeUpTo he.wellFormed hbytes
  have hencoded : ∀ native, Sound { e with bytes, native } := fun native => ⟨he.wellFormed, w, hw⟩
  rw [Action.ends_set_bind]
  exact Action.ends_lift_bind (hencoded _) fun native _ => hencoded native

/-- Replacing an item leaves a sound value, also when it is refused. -/
theorem sound_replaceItem (index : Nat) (v : Value) (he : e.Sound) :
    Action.Ends (replaceItem index v) e Sound := by
  rw [replaceItem, Action.ends_get_bind]
  exact Action.ends_lift_bind he fun length _ => Action.ends_lift_bind he fun native _ =>
    sound_reencode native he

theorem sound_push (v : Value) (he : e.Sound) : Action.Ends (push v) e Sound := by
  rw [push, Action.ends_get_bind]
  split
  · exact sound_reencode _ he
  · exact Action.ends_lift_bind he fun byte _ => sound_reencode _ he
  · exact he

/-- **BUILT VALUES ARE SOUND**, by induction on how they were made. -/
theorem Built.sound (h : Built e) : e.Sound := by
  induction h with
  | encoded hwf h => exact sound_of_encodeUpTo hwf h
  | decoded hwf h => exact sound_of_decode hwf h
  | item _ h ih => exact sound_of_item ih h
  | field _ h ih => exact sound_of_field ih h
  | replaced index v _ ih => exact sound_replaceItem index v ih
  | pushed v _ ih => exact sound_push v ih

end EncodedValue

end AvmSandbox
