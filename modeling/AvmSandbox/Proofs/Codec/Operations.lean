import AvmSandbox.Proofs.Codec.Access
import AvmSandbox.Proofs.Codec.Alike

/-! # Operations — what bytes do not settle

    Encoded values with the same type and the same bytes are equal, although
    their native values may differ.  An operation has the same outcome with both
    unless it refuses the form of one of the native values.

    * `Operation` with its `Outcome`, and `Operation.Refuses`: the forms that an
      operation does not take;
    * one comparison for sequences, byte strings and other types each;
    * `outcome_of_same_bytes`, which puts them together, and a struct whose field
      is not found. -/

namespace AvmSandbox

namespace EncodedValue

open Encoding Descriptor

variable {e : EncodedValue} {t : Descriptor} {bytes written : Bytes} {v w : Value}

/-! ## Operations -/

/-- What can be asked of an encoded value. -/
inductive Operation where
  | length
  | item (index : Nat)
  | field (name : String)
  | edit (edit : Edit)

/-- What can be seen of an answer: a number, or the type and bytes of a value. -/
inductive Outcome where
  | count (n : Nat)
  | value (type : Descriptor) (bytes : Bytes)
  deriving DecidableEq

/-- What can be seen of an encoded value. -/
def seen (e : EncodedValue) : Outcome := .value e.type e.bytes

namespace Operation

/-- The outcome of an operation: its answer, or the value that an edit leaves, if it succeeds. -/
def outcome (e : EncodedValue) : Operation → Option Outcome
  | length => e.length.toOption.map .count
  | item index => (e.item index).toOption.map seen
  | field name => (e.field name).toOption.map seen
  | edit change =>
      match change.run e with
      | (.ok _, e') => some e'.seen
      | (.error _, _) => none

/-- Whether an operation does not take the form of the native value, although it may take others
    with the same bytes.  An address has a length as bytes only; a byte string does not grow as a
    list, nor is an id in the list read as a byte; and a struct has no names as a tuple. -/
def Refuses (e : EncodedValue) : Operation → Prop
  | length | edit (.replaceItem _ _) => e.type = .address ∧ ∀ content, e.native ≠ .bytes content
  | item index =>
      e.type.isByteString = true ∧
        ∃ items v, e.native = .list items ∧ items[index]? = some v ∧ ∀ n, v ≠ .uint n
  | field _ => ∃ items, e.native = .tuple items
  | edit (.push _) => e.type = .dynamicBytes ∧ ∃ items, e.native = .list items

end Operation

/-! ## Outcomes -/

theorem toOption_eq_none {α : Type} {r : Result α} (h : ∀ a, r ≠ .ok a) : r.toOption = none := by
  cases r with
  | error _ => rfl
  | ok a => exact absurd rfl (h a)

theorem toOption_congr {α : Type} {r r' : Result α} (h : ∀ a, r = .ok a ↔ r' = .ok a) :
    r.toOption = r'.toOption := by
  cases hr : r with
  | ok a => rw [(h a).mp hr]
  | error _ =>
      refine (toOption_eq_none fun a ha => ?_).symm
      rw [(h a).mpr ha] at hr
      cases hr

/-- Of an encoding its bytes are seen, since what was encoded has a canonical form. -/
theorem seen_encode (hvalid : t.Valid) (v : Value) :
    (encode t v).toOption.map seen = (t.encode v).toOption.map (.value t) := by
  cases hbytes : t.encode v with
  | error fault =>
      rw [toOption_eq_none]
      · rfl
      · intro e he
        obtain ⟨-, hok, -⟩ := of_encodeUpTo he
        cases hok.symm.trans hbytes
  | ok bytes =>
      obtain ⟨w, hw, -⟩ := canonical_of_yields hvalid (encodeUpTo_eq_ok_iff.mp hbytes).1
      have hencode : encode t v = .ok ⟨t, bytes, w⟩ := encode_eq_ok_iff.mpr ⟨rfl, hbytes, hw⟩
      rw [hencode]
      rfl

/-- Of an edit the encoding of the native value is seen that it asks for. -/
theorem outcome_edit (hvalid : e.type.Valid) (edit : Edit) :
    (Operation.edit edit).outcome e =
      (edit.change e >>= e.type.encode).toOption.map (.value e.type) := by
  rw [Operation.outcome]
  rcases run_edit edit hvalid with
    ⟨native, bytes, w, hchange, hbytes, -, hrun⟩ | ⟨fault, hfault, hrun⟩
  · rw [hrun, hchange]
    show _ = (e.type.encode native).toOption.map _
    rw [hbytes]
    rfl
  · rw [hrun, hfault]
    rfl

/-- Only arrays and byte strings of free length grow. -/
theorem outcome_push_eq_none (harray : ∀ element, e.type ≠ .dynamicArray element)
    (hbytes : e.type ≠ .dynamicBytes) (x : Value) :
    (Operation.edit (.push x)).outcome e = none := by
  obtain ⟨type, bytes, native⟩ := e
  rw [Operation.outcome, Edit.run_eq]
  cases type with
  | dynamicArray element => exact absurd rfl (harray element)
  | dynamicBytes => exact absurd rfl hbytes
  | _ => rfl

/-- Only structs have fields. -/
theorem outcome_field_eq_none (h : ∀ struct fs, e.type ≠ .struct struct fs) (name : String) :
    (Operation.field name).outcome e = none := by
  obtain ⟨type, bytes, native⟩ := e
  cases type with
  | struct struct fs => exact absurd rfl (h struct fs)
  | _ => rfl

theorem outcome_field_of_leaf (ht : e.type.isSequence = false) (name : String) :
    (Operation.field name).outcome e = none := by
  refine outcome_field_eq_none (fun struct fs htype => ?_) name
  rw [htype] at ht
  cases ht

theorem outcome_push_of_leaf (ht : e.type.isSequence = false) (hbytes : e.type ≠ .dynamicBytes)
    (x : Value) : (Operation.edit (.push x)).outcome e = none := by
  refine outcome_push_eq_none (fun element htype => ?_) hbytes x
  rw [htype] at ht
  cases ht

/-- What has no length has no components to be replaced. -/
theorem outcome_replaceItem_eq_none (h : ∀ n, e.length ≠ .ok n) (index : Nat) (x : Value) :
    (Operation.edit (.replaceItem index x)).outcome e = none := by
  rw [Operation.outcome, Edit.run_eq, Edit.change, checkIndex]
  cases hlength : e.length with
  | ok n => exact absurd hlength (h n)
  | error fault => rfl

theorem toOption_encode (h : t.Alike v w) : (t.encode v).toOption = (t.encode w).toOption :=
  toOption_congr fun _ => h.encodeUpTo_eq_ok_iff

/-! ## Sequences -/

section Sequences

variable {xs ys : List Value}

/-- Components that are alike are encoded alike. -/
theorem outcome_item_of_rows (hwf : t.WellFormed) (ht : t.isSequence = true)
    (hv : t.InOrder v xs) (hw : t.InOrder w ys) (hrow : AlikeRow (t.rowTypes xs.length) xs ys)
    (index : Nat) :
    (Operation.item index).outcome ⟨t, bytes, v⟩
      = (Operation.item index).outcome ⟨t, bytes, w⟩ := by
  have hxs := length_of_inOrder (e := ⟨t, bytes, v⟩) ht hv
  have hys := length_of_inOrder (e := ⟨t, bytes, w⟩) ht hw
  by_cases hindex : index < xs.length
  · have hcount := length_rowTypes ht (takesCount_of_rowItems hv.rowItems)
    obtain ⟨u, hu⟩ : ∃ u, (t.rowTypes xs.length)[index]? = some u :=
      ⟨_, List.getElem?_eq_getElem (by rw [hcount]; exact hindex)⟩
    have hu' : (t.rowTypes ys.length)[index]? = some u := by rw [← hrow.length, hu]
    have hx : xs[index]? = some _ := List.getElem?_eq_getElem hindex
    have hy : ys[index]? = some _ := List.getElem?_eq_getElem (hrow.length ▸ hindex)
    have hinner := mem_inner_of_mem_rowTypes (List.mem_of_getElem? hu)
    have hvalid : u.Valid := WellFormed.valid (hwf.inside hinner)
    rw [Operation.outcome, Operation.outcome, item_of_inOrder (e := ⟨t, bytes, v⟩) ht hv hu hx,
      item_of_inOrder (e := ⟨t, bytes, w⟩) ht hw hu' hy, seen_encode hvalid, seen_encode hvalid,
      toOption_encode (hrow.component index _ _ _ hu hx hy)]
  · rw [Operation.outcome, Operation.outcome, item_of_length_le hxs (Nat.not_lt.mp hindex),
      item_of_length_le hys (Nat.not_lt.mp (hrow.length ▸ hindex))]
    rfl

/-- Fields are components, when both native values have names. -/
theorem outcome_field_of_rows (hwf : t.WellFormed) (ht : t.isSequence = true)
    (hv : t.InOrder v xs) (hw : t.InOrder w ys) (hrow : AlikeRow (t.rowTypes xs.length) xs ys)
    (hvt : ∀ items, v ≠ .tuple items) (hwt : ∀ items, w ≠ .tuple items) (name : String) :
    (Operation.field name).outcome ⟨t, bytes, v⟩
      = (Operation.field name).outcome ⟨t, bytes, w⟩ := by
  cases t with
  | struct struct fs =>
      have hgiven : ∀ {v items}, (Descriptor.struct struct fs).rowItems v = .ok items →
          (∀ items, v ≠ .tuple items) → ∃ given, v = .struct given := by
        intro v items hitems htuple
        cases v with
        | struct given => exact ⟨given, rfl⟩
        | tuple items => exact absurd rfl (htuple items)
        | _ => cases hitems
      obtain ⟨given, rfl⟩ := hgiven hv.rowItems hvt
      obtain ⟨given', rfl⟩ := hgiven hw.rowItems hwt
      cases hfind : fs.find? fun f => f.1 == name with
      | none => simp only [Operation.outcome, field, hfind]
      | some f =>
          have hmem := List.mem_of_find?_eq_some hfind
          obtain ⟨index, hindex⟩ := List.mem_iff_getElem?.mp hmem
          obtain ⟨x, hx, hxe⟩ := field_of_inOrder (e := ⟨.struct struct fs, bytes, _⟩)
            rfl rfl hv hfind hindex
          obtain ⟨y, hy, hye⟩ := field_of_inOrder (e := ⟨.struct struct fs, bytes, _⟩)
            rfl rfl hw hfind hindex
          have hu : (fs.map Prod.snd)[index]? = some f.2 := by rw [List.getElem?_map, hindex]; rfl
          have hvalid : f.2.Valid := WellFormed.valid (hwf.inside (List.mem_map_of_mem hmem))
          rw [Operation.outcome, Operation.outcome, hxe, hye, seen_encode hvalid,
            seen_encode hvalid, toOption_encode (hrow.component index _ _ _ hu hx hy)]
  | _ =>
      rw [outcome_field_eq_none (by simp), outcome_field_eq_none (by simp)]

/-- Rows that are alike stay so when a component is replaced in both. -/
theorem outcome_replaceItem_of_rows (hwf : t.WellFormed) (ht : t.isSequence = true)
    (hv : t.InOrder v xs) (hw : t.InOrder w ys) (hrow : AlikeRow (t.rowTypes xs.length) xs ys)
    (index : Nat) (x : Value) :
    (Operation.edit (.replaceItem index x)).outcome ⟨t, bytes, v⟩
      = (Operation.edit (.replaceItem index x)).outcome ⟨t, bytes, w⟩ := by
  rw [outcome_edit hwf.valid, outcome_edit hwf.valid,
    change_replaceItem_of_inOrder (e := ⟨t, bytes, v⟩) ht hv,
    change_replaceItem_of_inOrder (e := ⟨t, bytes, w⟩) ht hw, hrow.length]
  by_cases hindex : index < ys.length
  · rw [if_pos hindex, if_pos hindex]
    refine congrArg (Option.map _) (toOption_encode ?_)
    have hxs : (xs.set index x).length = xs.length := List.length_set
    have hys : (ys.set index x).length = ys.length := List.length_set
    have hset := hrow.set index x
    rw [← hxs] at hset
    exact alike_of_rows ht (hv.taken _ hxs) (hw.taken _ hys) hset
  · rw [if_neg hindex, if_neg hindex]

/-- Rows that are alike stay so when a component is appended to both. -/
theorem outcome_push_of_rows (hwf : t.WellFormed) (ht : t.isSequence = true)
    (hv : t.InOrder v xs) (hw : t.InOrder w ys) (hrow : AlikeRow (t.rowTypes xs.length) xs ys)
    (x : Value) :
    (Operation.edit (.push x)).outcome ⟨t, bytes, v⟩
      = (Operation.edit (.push x)).outcome ⟨t, bytes, w⟩ := by
  cases t with
  | dynamicArray element =>
      have hlist : ∀ {v items}, (dynamicArray element).rowItems v = .ok items →
          v = .list items := by
        intro v items hitems
        cases v with
        | list _ =>
            cases hitems
            rfl
        | _ => cases hitems
      obtain rfl := hlist hv.rowItems
      obtain rfl := hlist hw.rowItems
      rw [outcome_edit hwf.valid, outcome_edit hwf.valid]
      refine congrArg (Option.map _) (toOption_encode ?_)
      refine alike_of_rows (t := dynamicArray element) rfl rfl rfl ?_
      rw [List.length_append]
      exact AlikeRow.concat hrow rfl x
  | dynamicBytes => cases ht
  | _ =>
      rw [outcome_push_eq_none (by simp) (by simp), outcome_push_eq_none (by simp) (by simp)]

/-- Operations have the same outcome with sequences whose rows are alike. -/
theorem outcome_of_rows (hwf : t.WellFormed) (ht : t.isSequence = true)
    (hv : t.InOrder v xs) (hw : t.InOrder w ys) (hrow : AlikeRow (t.rowTypes xs.length) xs ys)
    (op : Operation) (hopv : ¬op.Refuses ⟨t, bytes, v⟩) (hopw : ¬op.Refuses ⟨t, bytes, w⟩) :
    op.outcome ⟨t, bytes, v⟩ = op.outcome ⟨t, bytes, w⟩ := by
  cases op with
  | length =>
      rw [Operation.outcome, Operation.outcome, length_of_inOrder (e := ⟨t, bytes, v⟩) ht hv,
        length_of_inOrder (e := ⟨t, bytes, w⟩) ht hw, hrow.length]
  | item index => exact outcome_item_of_rows hwf ht hv hw hrow index
  | field name =>
      exact outcome_field_of_rows hwf ht hv hw hrow (fun items h => hopv ⟨items, h⟩)
        (fun items h => hopw ⟨items, h⟩) name
  | edit edit =>
      cases edit with
      | push x => exact outcome_push_of_rows hwf ht hv hw hrow x
      | replaceItem index x => exact outcome_replaceItem_of_rows hwf ht hv hw hrow index x

end Sequences

/-! ## Byte strings -/

/-- A byte string that can be encoded has a content. -/
theorem hasContent_of_yields (bytes : Bytes) (ht : t.isByteString = true)
    (h : Yields (t.encodeIn v) none written none) :
    ∃ content, HasContent ⟨t, bytes, v⟩ content ∧
      Yields (t.encodeIn (.bytes content)) none written none := by
  obtain ⟨content, hcontent, hyields⟩ := (yields_byteString_iff ht).mp h
  exact ⟨content, ⟨ht, hcontent, written, hyields⟩, hyields⟩

/-- A byte string that may grow is given as bytes. -/
theorem eq_bytes_of_hasContent {content : Bytes} (h : HasContent ⟨t, bytes, v⟩ content)
    (hlist : ∀ items, v ≠ .list items) : v = .bytes content := by
  have hcontent : byteContent v = .ok content := h.native
  cases v with
  | bytes _ =>
      cases hcontent
      rfl
  | list items => exact absurd rfl (hlist items)
  | _ => cases hcontent

/-- Operations have the same outcome with byte strings that have the same content. -/
theorem outcome_of_content {content : Bytes} (hwf : t.WellFormed)
    (hv : HasContent ⟨t, bytes, v⟩ content) (hw : HasContent ⟨t, bytes, w⟩ content)
    (op : Operation) (hopv : ¬op.Refuses ⟨t, bytes, v⟩) (hopw : ¬op.Refuses ⟨t, bytes, w⟩) :
    op.outcome ⟨t, bytes, v⟩ = op.outcome ⟨t, bytes, w⟩ := by
  have ht : t.isByteString = true := hv.type
  have hleaf : t.isSequence = false := isSequence_of_isByteString ht
  cases op with
  | length =>
      rw [Operation.outcome, Operation.outcome, length_of_hasContent hv, length_of_hasContent hw]
  | item index =>
      rw [Operation.outcome, Operation.outcome]
      by_cases hindex : index < content.length
      -- an item that is not refused is a number, and then the byte at its place
      · have hnumbers : ∀ {v}, ¬(Operation.item index).Refuses ⟨t, bytes, v⟩ →
            ∀ items x, v = .list items → items[index]? = some x → ∃ n, x = .uint n := by
          intro v hop items x hitems hx
          by_contra hn
          exact hop ⟨ht, items, x, hitems, hx, fun n hxn => hn ⟨n, hxn⟩⟩
        have hb : content[index]? = some _ := List.getElem?_eq_getElem hindex
        rw [item_of_hasContent hv hb (hnumbers hopv), item_of_hasContent hw hb (hnumbers hopw)]
      · rw [item_of_length_le (length_of_hasContent hv) (Nat.not_lt.mp hindex),
          item_of_length_le (length_of_hasContent hw) (Nat.not_lt.mp hindex)]
  | field name => rw [outcome_field_of_leaf hleaf, outcome_field_of_leaf hleaf]
  | edit edit =>
      cases edit with
      | push x =>
          by_cases hdynamic : t = .dynamicBytes
          · have hlist : ∀ {v}, ¬(Operation.edit (.push x)).Refuses ⟨t, bytes, v⟩ →
                ∀ items, v ≠ .list items := fun hop items h => hop ⟨hdynamic, items, h⟩
            rw [eq_bytes_of_hasContent hv (hlist hopv), eq_bytes_of_hasContent hw (hlist hopw)]
          · rw [outcome_push_of_leaf hleaf hdynamic, outcome_push_of_leaf hleaf hdynamic]
      | replaceItem index x =>
          rw [outcome_edit hwf.valid, outcome_edit hwf.valid]
          refine congrArg (Option.map _) (toOption_congr fun bytes => ?_)
          rw [replaceItem_of_hasContent hv, replaceItem_of_hasContent hw]

/-! ## Other types -/

/-- A value that holds components is encoded as a sequence or byte string only. -/
theorem not_yields_of_elements {items : List Value} (ht : t.isSequence = false)
    (hs : t.isByteString = false) (hv : v.elements = .ok items) :
    ¬Yields (t.encodeIn v) none written none := by
  cases v with
  | list _ | tuple _ | struct _ =>
      cases t with
      | address => simp [encodeIn]
      | bool | uint _ | ufixed _ _ | byte | string | account | asset | application =>
          rw [encodeIn, yields_lift_bind]
          rintro ⟨_, hread, -⟩
          cases hread
      | dynamicBytes | staticBytes _ => cases hs
      | staticArray _ _ | dynamicArray _ | tuple _ | struct _ _ => cases ht
  | _ => cases hv

/-- Of the other types, only an address is given as bytes, which are its encoding. -/
theorem address_of_yields_bytes {content : Bytes} (ht : t.isSequence = false)
    (hs : t.isByteString = false) (h : Yields (t.encodeIn (.bytes content)) none written none) :
    t = .address ∧ content = written := by
  cases t with
  | address =>
      rw [encodeIn] at h
      split at h
      · exact ⟨rfl, (yields_pure.mp h).1⟩
      · cases h
  | bool | uint _ | ufixed _ _ | byte | string | account | asset | application =>
      rw [encodeIn, yields_lift_bind] at h
      obtain ⟨_, hread, -⟩ := h
      cases hread
  | dynamicBytes | staticBytes _ => cases hs
  | staticArray _ _ | dynamicArray _ | tuple _ | struct _ _ => cases ht

/-- Of the other types, only an address that is given as bytes has a length. -/
theorem bytes_of_length {n : Nat} (ht : t.isSequence = false) (hs : t.isByteString = false)
    (h : Yields (t.encodeIn v) none written none)
    (hlength : (⟨t, bytes, v⟩ : EncodedValue).length = .ok n) :
    t = .address ∧ v = .bytes written := by
  by_cases hv : ∃ items, v.elements = .ok items
  · obtain ⟨items, hv⟩ := hv
    exact absurd h (not_yields_of_elements ht hs hv)
  · cases v with
    | bytes content =>
        obtain ⟨rfl, rfl⟩ := address_of_yields_bytes ht hs h
        exact ⟨rfl, rfl⟩
    | list items => exact absurd ⟨items, rfl⟩ hv
    | tuple items => exact absurd ⟨items, rfl⟩ hv
    | struct fields => exact absurd ⟨_, rfl⟩ hv
    | _ =>
        cases t with
        | dynamicBytes | staticBytes _ => cases hs
        | staticArray _ _ | dynamicArray _ | tuple _ | struct _ _ => cases ht
        | _ => cases hlength

/-- The other types have no components, whatever the native value is. -/
theorem outcome_item_eq_none (ht : e.type.isSequence = false) (hs : e.type.isByteString = false)
    (index : Nat) : (Operation.item index).outcome e = none := by
  rw [Operation.outcome, toOption_eq_none]
  · rfl
  · intro e' he
    obtain ⟨n, -, he⟩ := bind_eq_ok_iff.mp he
    obtain ⟨u, hu, -⟩ := bind_eq_ok_iff.mp he
    obtain ⟨type, bytes, native⟩ := e
    cases type with
    | dynamicBytes | staticBytes _ => cases hs
    | staticArray _ _ | dynamicArray _ | tuple _ | struct _ _ => cases ht
    | _ => cases hu

/-- Two values of another type that are encoded alike are the same bytes or have no length, if no
    address among them has another form. -/
theorem eq_or_length_ne_ok (ht : t.isSequence = false) (hs : t.isByteString = false)
    (hv : Yields (t.encodeIn v) none written none) (hw : Yields (t.encodeIn w) none written none)
    (hvb : t = .address → ∃ content, v = .bytes content)
    (hwb : t = .address → ∃ content, w = .bytes content) :
    v = w ∨ (∀ n, (⟨t, bytes, v⟩ : EncodedValue).length ≠ .ok n) ∧
      ∀ n, (⟨t, bytes, w⟩ : EncodedValue).length ≠ .ok n := by
  by_cases haddress : t = .address
  · obtain ⟨content, rfl⟩ := hvb haddress
    obtain ⟨content', rfl⟩ := hwb haddress
    obtain ⟨-, rfl⟩ := address_of_yields_bytes ht hs hv
    obtain ⟨-, rfl⟩ := address_of_yields_bytes ht hs hw
    exact .inl rfl
  · exact .inr ⟨fun n h => haddress (bytes_of_length ht hs hv h).1,
      fun n h => haddress (bytes_of_length ht hs hw h).1⟩

/-- Operations have the same outcome with values of the other types that are encoded alike. -/
theorem outcome_of_leaf (ht : t.isSequence = false) (hs : t.isByteString = false)
    (hv : Yields (t.encodeIn v) none written none) (hw : Yields (t.encodeIn w) none written none)
    (op : Operation) (hopv : ¬op.Refuses ⟨t, bytes, v⟩) (hopw : ¬op.Refuses ⟨t, bytes, w⟩) :
    op.outcome ⟨t, bytes, v⟩ = op.outcome ⟨t, bytes, w⟩ := by
  have hbytes : ∀ {v : Value}, ¬(t = .address ∧ ∀ content, v ≠ .bytes content) → t = .address →
      ∃ content, v = .bytes content := by
    intro v hop haddress
    by_contra hv
    exact hop ⟨haddress, fun content h => hv ⟨content, h⟩⟩
  cases op with
  | length =>
      rcases eq_or_length_ne_ok ht hs hv hw (hbytes hopv) (hbytes hopw) with rfl | ⟨hv, hw⟩
      · rfl
      · rw [Operation.outcome, Operation.outcome, toOption_eq_none hv, toOption_eq_none hw]
  | item index => rw [outcome_item_eq_none ht hs, outcome_item_eq_none ht hs]
  | field name => rw [outcome_field_of_leaf ht, outcome_field_of_leaf ht]
  | edit edit =>
      cases edit with
      | push x =>
          have hdynamic : t ≠ .dynamicBytes := by
            rintro rfl
            cases hs
          rw [outcome_push_of_leaf ht hdynamic, outcome_push_of_leaf ht hdynamic]
      | replaceItem index x =>
          rcases eq_or_length_ne_ok ht hs hv hw (hbytes hopv) (hbytes hopw) with rfl | ⟨hv, hw⟩
          · rfl
          · rw [outcome_replaceItem_eq_none hv, outcome_replaceItem_eq_none hw]

/-! ## All types -/

/-- A byte is encoded from a number only. -/
theorem encodeUpTo_byte_ne_ok {max : Nat} (h : ∀ n, v ≠ .uint n) :
    byte.encodeUpTo max v ≠ .ok bytes := by
  intro hencode
  have hyields := (encodeUpTo_eq_ok_iff.mp hencode).1
  rw [encodeIn, yields_lift_bind] at hyields
  obtain ⟨n, hn, -⟩ := hyields
  cases v with
  | uint n => exact absurd rfl (h n)
  | _ => cases hn

/-- An operation fails when it refuses the form of the native value. -/
theorem outcome_of_refuses (he : e.Agrees) (op : Operation) (h : op.Refuses e) :
    op.outcome e = none := by
  obtain ⟨type, bytes, native⟩ := e
  obtain ⟨-, written, -, -, hyields⟩ := he.decoded
  -- the length of an address is read off its bytes only
  have hlength : type = .address → (∀ content, native ≠ .bytes content) →
      ∀ n, (⟨type, bytes, native⟩ : EncodedValue).length ≠ .ok n := by
    rintro rfl hnative n hlength
    exact hnative _ (bytes_of_length rfl rfl hyields hlength).2
  cases op with
  | length =>
      rw [Operation.outcome, toOption_eq_none (hlength h.1 h.2)]
      rfl
  | item index =>
      obtain ⟨ht, items, v, rfl, hv, hnumber⟩ := h
      obtain ⟨content, hcontent, -⟩ := hasContent_of_yields bytes ht hyields
      have hlen := length_of_hasContent hcontent
      have hbyte : byte.WellFormed := wellFormed_leaf rfl trivial
      rw [Operation.outcome]
      by_cases hindex : index < content.length
      · rw [item_of_elements hlen hindex (itemType_of_isByteString ht) rfl hv,
          seen_encode hbyte.valid, toOption_eq_none]
        · rfl
        · intro bytes
          exact encodeUpTo_byte_ne_ok hnumber
      · rw [item_of_length_le hlen (Nat.not_lt.mp hindex)]
        rfl
  | field name =>
      obtain ⟨items, rfl⟩ := h
      cases type with
      | struct struct fs =>
          rw [Operation.outcome, field]
          dsimp only
          split <;> rfl
      | _ => rfl
  | edit edit =>
      cases edit with
      | push x =>
          obtain ⟨rfl, items, rfl⟩ := h
          rw [Operation.outcome, Edit.run_eq]
          rfl
      | replaceItem index x => exact outcome_replaceItem_eq_none (hlength h.1 h.2) index x

/-- **BYTES SETTLE WHAT OPERATIONS DO**, but for the forms of native values that they refuse: with
    two values of the same type and bytes, an operation that refuses neither has the same outcome,
    and one that refuses a value fails. -/
theorem outcome_of_same_bytes {a b : EncodedValue} (ha : Built a) (hb : Built b)
    (htype : a.type = b.type) (hbytes : a.bytes = b.bytes) (op : Operation) :
    (op.Refuses a → op.outcome a = none) ∧
      (¬op.Refuses a → ¬op.Refuses b → op.outcome a = op.outcome b) := by
  refine ⟨outcome_of_refuses ha.agrees op, fun hopa hopb => ?_⟩
  have hagreesa := ha.agrees
  have hagreesb := hb.agrees
  obtain ⟨t, bytes, v⟩ := a
  obtain ⟨t', bytes', w⟩ := b
  obtain rfl : t = t' := htype
  obtain rfl : bytes = bytes' := hbytes
  have hwf : t.WellFormed := hagreesa.wellFormed
  -- both are encoded like what the bytes decode to
  obtain ⟨u, written, hu, huyields, hv⟩ := hagreesa.decoded
  obtain ⟨u', written', hu', huyields', hw⟩ := hagreesb.decoded
  cases hu.symm.trans hu'
  obtain rfl : written = written' := by
    cases huyields.symm.trans huyields'
    rfl
  cases ht : t.isSequence with
  | true =>
      obtain ⟨xs, hxs⟩ := hagreesa.ordered ht
      obtain ⟨ys, hys⟩ := hagreesb.ordered ht
      have hrow := alikeRow_of_yields hwf ht hxs.rowItems hys.rowItems hv hw
      exact outcome_of_rows hwf ht hxs hys hrow op hopa hopb
  | false =>
      cases hs : t.isByteString with
      | true =>
          obtain ⟨content, hcontent, hc⟩ := hasContent_of_yields bytes hs hv
          obtain ⟨content', hcontent', hc'⟩ := hasContent_of_yields bytes hs hw
          obtain rfl := content_unique hs hc hc'
          exact outcome_of_content hwf hcontent hcontent' op hopa hopb
      | false => exact outcome_of_leaf ht hs hv hw op hopa hopb

/-- One pair, encoded from a tuple and decoded again. -/
private theorem built_pairs :
    let pair := struct "Pair" [("a", uint 8), ("b", string)]
    Built ⟨pair, [5, 0, 3, 0, 1, 120], .tuple [.uint 5, .str "x"]⟩ ∧
      Built ⟨pair, [5, 0, 3, 0, 1, 120], .struct [("a", .uint 5), ("b", .str "x")]⟩ := by
  intro pair
  have hwf : pair.WellFormed := by
    refine .intro ⟨⟨trivial, ?_⟩, trivial, ?_⟩ ?_
    · show (List.map Prod.fst [("a", uint 8), ("b", string)]).Nodup
      decide
    · intro c hc hd
      rcases List.mem_pair.mp hc with rfl | rfl
      · exact ⟨1, by decide⟩
      · exact absurd hd (by decide)
    · intro c hc
      rcases List.mem_pair.mp hc with rfl | rfl
      · exact wellFormed_leaf rfl ⟨by decide, by decide, rfl⟩
      · exact wellFormed_leaf rfl trivial
  constructor
  · have hencode : encode pair (.tuple [.uint 5, .str "x"])
        = .ok ⟨pair, [5, 0, 3, 0, 1, 120], .tuple [.uint 5, .str "x"]⟩ := by decide +kernel
    exact .encoded hwf hencode
  · have hdecode : decode .bare pair [5, 0, 3, 0, 1, 120]
        = .ok ⟨pair, [5, 0, 3, 0, 1, 120], .struct [("a", .uint 5), ("b", .str "x")]⟩ := by
      decide +kernel
    exact .decoded hwf hdecode

/-- A pair that was given as a tuple has the component of the decoded one, but no field. -/
theorem outcome_of_same_bytes_pair :
    let pair := struct "Pair" [("a", uint 8), ("b", string)]
    let given : EncodedValue := ⟨pair, [5, 0, 3, 0, 1, 120], .tuple [.uint 5, .str "x"]⟩
    let decoded : EncodedValue :=
      ⟨pair, [5, 0, 3, 0, 1, 120], .struct [("a", .uint 5), ("b", .str "x")]⟩
    Built given ∧ Built decoded ∧
      (Operation.field "a").Refuses given ∧ (Operation.field "a").outcome given = none ∧
      ¬(Operation.item 0).Refuses given ∧ ¬(Operation.item 0).Refuses decoded ∧
      (Operation.item 0).outcome given = (Operation.item 0).outcome decoded ∧
      (Operation.item 0).outcome decoded = some (.value (uint 8) [5]) := by
  intro pair given decoded
  obtain ⟨hgiven, hdecoded⟩ := built_pairs
  have hfield : (Operation.field "a").Refuses given := ⟨_, rfl⟩
  have hitem : ∀ {e : EncodedValue}, e.type = pair → ¬(Operation.item 0).Refuses e := by
    rintro e htype ⟨hbytes, -⟩
    rw [htype] at hbytes
    cases hbytes
  exact ⟨hgiven, hdecoded, hfield,
    (outcome_of_same_bytes hgiven hdecoded rfl rfl (.field "a")).1 hfield, hitem rfl, hitem rfl,
    (outcome_of_same_bytes hgiven hdecoded rfl rfl (.item 0)).2 (hitem rfl) (hitem rfl),
    by decide +kernel⟩

/-- Bytes do not settle everything: a pair that was given as a tuple does not find its field, the
    same bytes decoded do. -/
theorem outcome_not_settled_by_bytes :
    ¬∀ (a b : EncodedValue) (op : Operation), Built a → Built b → a.type = b.type →
      a.bytes = b.bytes → op.outcome a = op.outcome b := by
  intro h
  obtain ⟨hgiven, hdecoded⟩ := built_pairs
  have hsame := h _ _ (.field "a") hgiven hdecoded rfl rfl
  have hfails : (Operation.field "a").outcome ⟨struct "Pair" [("a", uint 8), ("b", string)],
      [5, 0, 3, 0, 1, 120], .tuple [.uint 5, .str "x"]⟩ = none := by decide +kernel
  have hfound : (Operation.field "a").outcome ⟨struct "Pair" [("a", uint 8), ("b", string)],
      [5, 0, 3, 0, 1, 120], .struct [("a", .uint 5), ("b", .str "x")]⟩
        = some (.value (uint 8) [5]) := by decide +kernel
  rw [hfails, hfound] at hsame
  cases hsame

end EncodedValue

end AvmSandbox
