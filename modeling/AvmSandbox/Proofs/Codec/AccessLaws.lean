import AvmSandbox.Proofs.Codec.Containers

/-! # Access laws — what is written is read back, and nothing else changes

    The components of a container are read and written one by one, but each
    write encodes the whole container anew and brings it into canonical form.
    Nothing is lost on the way: a component that was written is read back, and
    the others are read as before, whether they lie in the same byte or behind
    an offset that has moved.

    * `replaced_of_run`, `change_of_member`: replacing a component, by another
      value or by itself;
    * `pushed_of_run`: appending a component;
    * `field_eq_item`: fields are components;
    * `EncodedValue.AccessLaws` and `access_laws`: the laws together. -/

namespace AvmSandbox

namespace EncodedValue

open Encoding Descriptor

variable {e e' : EncodedValue} {t : Descriptor} {v x : Value} {index : Nat}

/-! ## Containers that are encoded anew -/

/-- Whether a sequence has been encoded from a row of members: each of them can be encoded alone,
    and the sequence is made up of their canonical forms. -/
structure Renewed (t : Descriptor) (cs : List (Descriptor × Value)) (ws : List Value)
    (e : EncodedValue) : Prop where
  type : e.type = t
  held : t.Held e.native
  encoded : ∀ c ∈ cs, ∃ y, encode c.1 c.2 = .ok y
  canonical : cs.mapM (fun c => c.1.canonical c.2) = .ok ws
  native : e.native = t.rowValue ws

/-- A sequence is encoded with its members. -/
theorem renewed_rowValue {items : List Value} (ht : t.isSequence = true) (hwf : t.WellFormed)
    (htakes : t.TakesCount items.length)
    (hvariants : ∀ c ∈ t.members (t.rowValue items), c.1.HasVariants c.2)
    (h : encode t (t.rowValue items) = .ok e) :
    ∃ ws, Renewed t (t.members (t.rowValue items)) ws e := by
  obtain ⟨htype, hbytes, hcanonical⟩ := encode_eq_ok_iff.mp h
  have hv := hasVariants_rowValue ht hvariants
  have hheld := held_of_encodeUpTo hwf hv hbytes (encodeUpTo_eq_ok_iff.mp hbytes).2 hcanonical
  obtain ⟨ws, hws, hnative⟩ :=
    (canonical_rowValue_eq_ok_iff ht hwf.here.names htakes).mp hcanonical
  refine ⟨ws, htype, hheld, ?_, hws, hnative⟩
  intro c hc
  rw [members_sequence ht] at hc
  obtain ⟨inside, hinside⟩ := exists_encode_inside hv hbytes hc
  obtain ⟨y, hy, -⟩ := encode_again (hwf.inside (mem_inner_of_mem_entries hc))
    (hv.inside hc) hinside
  exact ⟨y, hy⟩

/-- A byte string is encoded as it is. -/
theorem renewed_bytes {content : Bytes} (ht : t.isByteString = true) (hwf : t.WellFormed)
    (h : encode t (.bytes content) = .ok e) :
    e.type = t ∧ t.Held e.native ∧ e.native = .bytes content := by
  have hleaf := isSequence_of_isByteString ht
  have hv : t.HasVariants (.bytes content) := by
    refine everywhere_leaf hleaf ?_
    cases t with
    | dynamicBytes | staticBytes _ => trivial
    | _ => cases ht
  obtain ⟨htype, hbytes, hcanonical⟩ := encode_eq_ok_iff.mp h
  have hheld := held_of_encodeUpTo hwf hv hbytes (encodeUpTo_eq_ok_iff.mp hbytes).2 hcanonical
  rw [canonical_leaf hleaf] at hcanonical
  exact ⟨htype, hheld, (Except.ok.inj hcanonical).symm⟩

/-! ## Replacing a component -/

private theorem zip_set_right {α β : Type} {xs : List α} {a : α} {i : Nat} (ys : List β) (b : β)
    (ha : xs[i]? = some a) : xs.zip (ys.set i b) = (xs.zip ys).set i (a, b) := by
  induction xs generalizing ys i with
  | nil => cases ha
  | cons x xs ih =>
      cases ys with
      | nil => rfl
      | cons y ys =>
          cases i with
          | zero =>
              cases ha
              rfl
          | succ i => exact congrArg ((x, y) :: ·) (ih ys ha)

/-- Whether a value is left by replacing a component: it shows the same members but for one, and
    replacing that one again comes to the same as if it had not been replaced. -/
structure Replaced (e : EncodedValue) (index : Nat) (c : Descriptor × Value) (e' : EncodedValue) :
    Prop where
  type : e'.type = e.type
  held : e'.type.Held e'.native
  members : e'.type.members e'.native = (e.type.members e.native).set index c
  again : ∀ z, (Edit.replaceItem index z).change e' = (Edit.replaceItem index z).change e

/-- The value that replacing a component of a sequence asks for. -/
theorem change_sequence {items : List Value} (ht : e.type.isSequence = true)
    (hnames : e.type.NamesDistinct) (htakes : e.type.TakesCount items.length)
    (hnative : e.native = e.type.rowValue items) (hindex : index < items.length) (x : Value) :
    (Edit.replaceItem index x).change e = .ok (e.type.rowValue (items.set index x)) := by
  have horder : e.type.InOrder e.native items := by
    rw [hnative]
    exact inOrder_rowValue ht hnames htakes
  rw [change_replaceItem_of_inOrder ht horder, if_pos hindex, hnative]
  obtain ⟨type, bytes, native⟩ := e
  cases type with
  | struct name fs =>
      have hlen : items.length = fs.length := htakes
      show _ = Except.ok (Value.struct ((fs.map Prod.fst).zip (items.set index x)))
      rw [rowValue, withItems, List.map_fst_zip (by rw [List.length_map, hlen])]
  | staticArray _ _ | dynamicArray _ | tuple _ => rfl
  | _ => cases ht

theorem replaced_sequence {c : Descriptor × Value} (ht : e.type.isSequence = true)
    (h : e.type.Held e.native) (hc : (e.type.members e.native)[index]? = some c)
    (hx : c.1.HasVariants x) (hrun : (Edit.replaceItem index x).run e = (.ok (), e')) :
    ∃ y, encode c.1 x = .ok y ∧ e.Replaced index (c.1, y.native) e' := by
  have hnames := h.wellFormed.here.names
  obtain ⟨items, hnative, htakes, hmembers, hcanonical, hproper⟩ := h.sequence ht
  have htakes' : ∀ z, e.type.TakesCount (items.set index z).length := fun z => by
    rwa [List.length_set]
  obtain ⟨htype, hitem⟩ := List.getElem?_zip_eq_some.mp (hmembers ▸ hc)
  obtain ⟨hindex, -⟩ := List.getElem?_eq_some_iff.mp hitem
  obtain ⟨hplace, -⟩ := List.getElem?_eq_some_iff.mp hc
  -- only the member at the place is another one
  have hset : ∀ z, e.type.members (e.type.rowValue (items.set index z))
      = (e.type.members e.native).set index (c.1, z) := by
    intro z
    rw [members_rowValue ht hnames (htakes' z), hmembers, List.length_set,
      zip_set_right items z htype]
  obtain ⟨native, hchange, hencode⟩ := (run_edit_eq_ok_iff _ h.wellFormed.valid).mp hrun
  rw [change_sequence ht hnames htakes hnative hindex] at hchange
  obtain rfl := Except.ok.inj hchange
  have hvariants : ∀ d ∈ e.type.members (e.type.rowValue (items.set index x)),
      d.1.HasVariants d.2 := by
    rw [hset]
    intro d hd
    rcases List.mem_or_eq_of_mem_set hd with hd | rfl
    · exact (hproper d hd).form.hasVariants
    · exact hx
  obtain ⟨ws, hnew⟩ := renewed_rowValue ht h.wellFormed (htakes' x) hvariants hencode
  rw [hset] at hnew
  obtain ⟨y, hy⟩ := hnew.encoded (c.1, x) (List.mem_set hplace _)
  obtain ⟨u, hu, rfl⟩ := (mapM_set_eq_ok_iff hcanonical hplace).mp hnew.canonical
  cases hu.symm.trans (encode_eq_ok_iff.mp hy).2.2
  refine ⟨y, hy, hnew.type, hnew.type.symm ▸ hnew.held, ?_, ?_⟩
  · rw [hnew.type, hnew.native, hset]
  · intro z
    obtain ⟨type', bytes', native'⟩ := e'
    obtain rfl : type' = e.type := hnew.type
    -- a second replacement overwrites the first
    have hagain := change_sequence (e := ⟨e.type, bytes', native'⟩) ht hnames
      (htakes' y.native) hnew.native (by rwa [List.length_set]) z
    rw [change_sequence ht hnames htakes hnative hindex, hagain, List.set_set]

/-- The value that replacing a byte asks for. -/
theorem change_byteString {content : Bytes} (ht : e.type.isByteString = true)
    (h : e.type.Held e.native) (hnative : e.native = .bytes content)
    (hindex : index < content.length) (x : Value) :
    (Edit.replaceItem index x).change e
      = x.asByte >>= fun b => .ok (.bytes (content.set index b)) := by
  have hlength : e.length = .ok content.length := by
    rw [(shows_byteString ht h).length, hnative, members_bytes ht, List.length_map]
  rw [Edit.change, checkIndex_of_length hlength, if_pos hindex, ok_bind, hnative, setItem]
  simp only [if_pos hindex]
  rfl

/-- A number that stands for a byte is that byte. -/
theorem eq_uint_of_asByte {b : UInt8} (hx : byte.HasVariants x) (hb : x.asByte = .ok b) :
    x = .uint b.toNat := by
  have hvariant := hx.here
  cases x with
  | uint n => rw [Value.eq_toNat_of_asByte hb]
  | _ => exact hvariant.elim

theorem replaced_byteString {c : Descriptor × Value} (ht : e.type.isByteString = true)
    (h : e.type.Held e.native) (hc : (e.type.members e.native)[index]? = some c)
    (hx : c.1.HasVariants x) (hrun : (Edit.replaceItem index x).run e = (.ok (), e')) :
    ∃ y, encode c.1 x = .ok y ∧ e.Replaced index (c.1, y.native) e' := by
  obtain ⟨content, hnative⟩ := h.byteString ht
  have hmembers : e.type.members e.native = content.map fun b => (byte, .uint b.toNat) := by
    rw [hnative]
    exact members_bytes ht content
  rw [hmembers, List.getElem?_map, Option.map_eq_some_iff] at hc
  obtain ⟨old, hold, rfl⟩ := hc
  obtain ⟨hindex, -⟩ := List.getElem?_eq_some_iff.mp hold
  obtain ⟨native, hchange, hencode⟩ := (run_edit_eq_ok_iff _ h.wellFormed.valid).mp hrun
  rw [change_byteString ht h hnative hindex, bind_eq_ok_iff] at hchange
  obtain ⟨b, hb, hchange⟩ := hchange
  obtain rfl := Except.ok.inj hchange
  obtain rfl := eq_uint_of_asByte hx hb
  obtain ⟨htype', hheld, hnative'⟩ := renewed_bytes ht h.wellFormed hencode
  refine ⟨_, encode_of_held (held_byte b), htype', htype'.symm ▸ hheld, ?_, ?_⟩
  · rw [htype', hnative', members_bytes ht, List.map_set, hmembers]
  · intro z
    obtain ⟨type', bytes', native'⟩ := e'
    obtain rfl : type' = e.type := htype'
    have hagain := change_byteString (e := ⟨e.type, bytes', native'⟩) ht hheld hnative'
      (by rwa [List.length_set]) z
    rw [change_byteString ht h hnative hindex, hagain]
    simp only [List.set_set]

/-- **A COMPONENT IS REPLACED AND NOTHING ELSE.** -/
theorem replaced_of_run {c : Descriptor × Value} (ht : e.type.isContainer = true)
    (h : e.type.Held e.native) (hc : (e.type.members e.native)[index]? = some c)
    (hx : c.1.HasVariants x) (hrun : (Edit.replaceItem index x).run e = (.ok (), e')) :
    ∃ y, encode c.1 x = .ok y ∧ e.Replaced index (c.1, y.native) e' := by
  cases hseq : e.type.isSequence with
  | true => exact replaced_sequence hseq h hc hx hrun
  | false => exact replaced_byteString (by simpa [isContainer, hseq] using ht) h hc hx hrun

/-- Replacing a component by itself asks for the native value that is there. -/
theorem change_of_member {c : Descriptor × Value} (ht : e.type.isContainer = true)
    (h : e.type.Held e.native) (hc : (e.type.members e.native)[index]? = some c) :
    (Edit.replaceItem index c.2).change e = .ok e.native := by
  cases hseq : e.type.isSequence with
  | true =>
      obtain ⟨items, hnative, htakes, hmembers, -, -⟩ := h.sequence hseq
      obtain ⟨-, hitem⟩ := List.getElem?_zip_eq_some.mp (hmembers ▸ hc)
      obtain ⟨hindex, hitem⟩ := List.getElem?_eq_some_iff.mp hitem
      rw [change_sequence hseq h.wellFormed.here.names htakes hnative hindex, ← hitem,
        List.set_getElem_self, ← hnative]
  | false =>
      have hbytes : e.type.isByteString = true := by simpa [isContainer, hseq] using ht
      obtain ⟨content, hnative⟩ := h.byteString hbytes
      rw [hnative, members_bytes hbytes, List.getElem?_map, Option.map_eq_some_iff] at hc
      obtain ⟨b, hb, rfl⟩ := hc
      obtain ⟨hindex, hb⟩ := List.getElem?_eq_some_iff.mp hb
      rw [change_byteString hbytes h hnative hindex, Value.asByte_toNat, ok_bind, ← hb,
        List.set_getElem_self, hnative]

/-! ## Appending a component -/

/-- What is left by appending a component shows one member more. -/
structure Pushed (e : EncodedValue) (c : Descriptor × Value) (e' : EncodedValue) : Prop where
  type : e'.type = e.type
  held : e'.type.Held e'.native
  members : e'.type.members e'.native = e.type.members e.native ++ [c]

/-- The value that appending to an array asks for has one member more. -/
theorem members_append (element : Descriptor) (items : List Value) (z : Value) :
    (dynamicArray element).members (.list (items ++ [z]))
      = (dynamicArray element).members (.list items) ++ [(element, z)] := by
  rw [members_sequence rfl, members_sequence rfl]
  exact List.map_append

theorem pushed_array {element : Descriptor} (htype : e.type = .dynamicArray element)
    (h : e.type.Held e.native) (hx : element.HasVariants x)
    (hrun : (Edit.push x).run e = (.ok (), e')) :
    ∃ y, encode element x = .ok y ∧ e.Pushed (element, y.native) e' := by
  obtain ⟨native, hchange, hencode⟩ := (run_edit_eq_ok_iff _ h.wellFormed.valid).mp hrun
  have ht : e.type.isSequence = true := by rw [htype]; rfl
  obtain ⟨items, hnative, -, -, hcanonical, hproper⟩ := h.sequence ht
  have hwf := h.wellFormed
  rw [htype] at ht hwf hnative hcanonical hproper hencode
  have hnative : e.native = .list items := hnative
  rw [hnative] at hcanonical hproper
  rw [Edit.change, htype, hnative] at hchange
  obtain rfl := Except.ok.inj hchange
  have hvariants : ∀ d ∈ (dynamicArray element).members (.list (items ++ [x])),
      d.1.HasVariants d.2 := by
    rw [members_append]
    intro d hd
    rcases List.mem_append.mp hd with hd | hd
    · exact (hproper d hd).form.hasVariants
    · obtain rfl := List.mem_singleton.mp hd
      exact hx
  have htakes : (dynamicArray element).TakesCount (items ++ [x]).length := trivial
  obtain ⟨ws, hnew⟩ := renewed_rowValue ht hwf htakes hvariants hencode
  have hcs : (dynamicArray element).members (rowValue (items ++ [x]) (.dynamicArray element))
      = (dynamicArray element).members (.list items) ++ [(element, x)] := members_append _ _ _
  rw [hcs] at hnew
  obtain ⟨y, hy⟩ := hnew.encoded (element, x) (List.mem_append_right _ (List.mem_singleton.mpr rfl))
  have hws := hnew.canonical
  rw [List.mapM_append, hcanonical, List.mapM_cons, (encode_eq_ok_iff.mp hy).2.2] at hws
  obtain rfl := Except.ok.inj hws
  refine ⟨y, hy, hnew.type.trans htype.symm, hnew.type.symm ▸ hnew.held, ?_⟩
  rw [hnew.type, hnew.native, htype, hnative]
  exact members_append _ _ _

theorem pushed_byteString (htype : e.type = .dynamicBytes)
    (h : e.type.Held e.native) (hx : byte.HasVariants x)
    (hrun : (Edit.push x).run e = (.ok (), e')) :
    ∃ y, encode byte x = .ok y ∧ e.Pushed (byte, y.native) e' := by
  obtain ⟨native, hchange, hencode⟩ := (run_edit_eq_ok_iff _ h.wellFormed.valid).mp hrun
  have ht : e.type.isByteString = true := by rw [htype]; rfl
  obtain ⟨content, hnative⟩ := h.byteString ht
  rw [Edit.change, htype, hnative, Edit.pushed, bind_eq_ok_iff] at hchange
  obtain ⟨b, hb, hchange⟩ := hchange
  obtain rfl := Except.ok.inj hchange
  obtain rfl := eq_uint_of_asByte hx hb
  obtain ⟨htype', hheld, hnative'⟩ := renewed_bytes ht h.wellFormed hencode
  refine ⟨_, encode_of_held (held_byte b), htype', htype'.symm ▸ hheld, ?_⟩
  rw [htype', hnative', hnative, members_bytes ht, members_bytes ht, List.map_append]
  rfl

/-- **A COMPONENT IS APPENDED AND NOTHING ELSE.** -/
theorem pushed_of_run (h : e.type.Held e.native) (ht : e.type.element? = some t)
    (hx : t.HasVariants x) (hrun : (Edit.push x).run e = (.ok (), e')) :
    ∃ y, encode t x = .ok y ∧ e.Pushed (t, y.native) e' := by
  cases htype : e.type with
  | dynamicArray element =>
      rw [htype] at ht
      cases ht
      exact pushed_array htype h hx hrun
  | dynamicBytes =>
      rw [htype] at ht
      cases ht
      exact pushed_byteString htype h hx hrun
  | _ =>
      obtain ⟨native, hchange, -⟩ := (run_edit_eq_ok_iff _ h.wellFormed.valid).mp hrun
      rw [Edit.change, htype, Edit.pushed] at hchange
      · cases hchange
      all_goals simp

/-! ## Fields -/

/-- Among different names, each field is found by its own. -/
theorem find_field {fs : List (String × Descriptor)} {f : String × Descriptor}
    (hnames : (fs.map Prod.fst).Nodup) (hf : f ∈ fs) :
    (fs.find? fun g => g.1 == f.1) = some f := by
  have hsome : (fs.find? fun g => g.1 == f.1).isSome = true :=
    List.find?_isSome.mpr ⟨f, hf, beq_self_eq_true f.1⟩
  obtain ⟨g, hg⟩ := Option.isSome_iff_exists.mp hsome
  have hname := List.find?_some hg
  rw [beq_iff_eq] at hname
  rw [hg, List.inj_on_of_nodup_map hnames (List.mem_of_find?_eq_some hg) hf hname]

/-- A field of a struct is the component in its place. -/
theorem field_eq_item {struct : String} {fs : List (String × Descriptor)}
    {f : String × Descriptor} (htype : e.type = .struct struct fs) (h : e.type.Held e.native)
    (hf : fs[index]? = some f) : e.field f.1 = e.item index := by
  have ht : e.type.isSequence = true := by rw [htype]; rfl
  have hnames := h.wellFormed.here.names
  obtain ⟨items, hnative, htakes, -, -, -⟩ := h.sequence ht
  have horder : e.type.InOrder e.native items := by
    rw [hnative]
    exact inOrder_rowValue ht hnames htakes
  have hgiven : e.native = .struct ((fs.map Prod.fst).zip items) := by
    rw [hnative, htype]
    rfl
  have hrow : (e.type.rowTypes items.length)[index]? = some f.2 := by
    rw [htype]
    show (fs.map Prod.snd)[index]? = some f.2
    rw [List.getElem?_map, hf]
    rfl
  rw [htype] at hnames
  obtain ⟨v, hv, hfield⟩ :=
    field_of_inOrder htype hgiven horder (find_field hnames (List.mem_of_getElem? hf)) hf
  rw [hfield, item_of_inOrder ht horder hrow hv]

/-! ## Reading after an edit -/

/-- A member is encoded as it is held. -/
theorem item_of_member {c : Descriptor × Value} (ht : e.type.isContainer = true)
    (h : e.type.Held e.native) (hc : (e.type.members e.native)[index]? = some c) :
    e.item index = .ok ⟨c.1, written (c.1.layout c.2), c.2⟩ := by
  rw [((shows_members ht h).component hc).2]
  exact encode_of_held (h.member ht (List.mem_of_getElem? hc))

/-- There is a component for each member, and none beyond. -/
theorem exists_item_iff (ht : e.type.isContainer = true) (h : e.type.Held e.native) :
    (∃ c, e.item index = .ok c) ↔ index < (e.type.members e.native).length := by
  by_cases hlt : index < (e.type.members e.native).length
  · exact iff_of_true ⟨_, item_of_member ht h (List.getElem?_eq_getElem hlt)⟩ hlt
  · rw [item_of_length_le (shows_members ht h).length (Nat.not_lt.mp hlt)]
    refine iff_of_false (fun h => ?_) hlt
    obtain ⟨c, hc⟩ := h
    cases hc

/-- A place that shows what was encoded gives its encoding. -/
theorem item_of_encoded {y : EncodedValue} (ht : e.type.isContainer = true)
    (h : e.type.Held e.native) (hx : t.HasVariants x) (hy : encode t x = .ok y)
    (hc : (e.type.members e.native)[index]? = some (t, y.native)) : e.item index = .ok y := by
  have hwf := (h.member ht (List.mem_of_getElem? hc)).wellFormed
  obtain ⟨c, hencode, hagain⟩ := encode_again hwf hx (encode_eq_ok_iff.mp hy).2.1
  cases hy.symm.trans hencode
  exact ((shows_members ht h).component hc).2.trans hagain

/-- A place that shows the same member is read alike. -/
theorem item_congr {c : Descriptor × Value} (ht : e.type.isContainer = true)
    (h : e.type.Held e.native) (ht' : e'.type.isContainer = true) (h' : e'.type.Held e'.native)
    (hc : (e.type.members e.native)[index]? = some c)
    (hc' : (e'.type.members e'.native)[index]? = some c) : e'.item index = e.item index := by
  rw [item_of_member ht h hc, item_of_member ht' h' hc']

/-- A component that was replaced is read back, and the others are read as before. -/
theorem reads_of_replaced {y : EncodedValue} {w : Value} (ht : e.type.isContainer = true)
    (h : e.type.Held e.native) (hc : (e.type.members e.native)[index]? = some (t, w))
    (hx : t.HasVariants x) (hy : encode t x = .ok y) (hnew : e.Replaced index (t, y.native) e') :
    e'.length = .ok (e.type.members e.native).length ∧ e'.item index = .ok y ∧
      ∀ j, j ≠ index → e'.item j = e.item j := by
  have ht' : e'.type.isContainer = true := hnew.type ▸ ht
  have hlength := (shows_members ht' hnew.held).length
  rw [hnew.members, List.length_set] at hlength
  refine ⟨hlength, ?_, ?_⟩
  · refine item_of_encoded ht' hnew.held hx hy ?_
    rw [hnew.members, List.getElem?_set_self (List.getElem?_eq_some_iff.mp hc).1]
  · intro j hj
    by_cases hlt : j < (e.type.members e.native).length
    · refine item_congr ht h ht' hnew.held (List.getElem?_eq_getElem hlt) ?_
      rw [hnew.members, List.getElem?_set_ne hj.symm]
      exact List.getElem?_eq_getElem hlt
    · rw [item_of_length_le hlength (Nat.not_lt.mp hlt),
        item_of_length_le (shows_members ht h).length (Nat.not_lt.mp hlt)]

/-- A component that was appended is read in the last place, and the others are read as before. -/
theorem reads_of_pushed {y : EncodedValue} (ht : e.type.isContainer = true)
    (h : e.type.Held e.native) (hx : t.HasVariants x) (hy : encode t x = .ok y)
    (hnew : e.Pushed (t, y.native) e') :
    e'.length = .ok ((e.type.members e.native).length + 1) ∧
      e'.item (e.type.members e.native).length = .ok y ∧
      ∀ j < (e.type.members e.native).length, e'.item j = e.item j := by
  have ht' : e'.type.isContainer = true := hnew.type ▸ ht
  have hlength := (shows_members ht' hnew.held).length
  rw [hnew.members, List.length_append, List.length_singleton] at hlength
  refine ⟨hlength, ?_, ?_⟩
  · refine item_of_encoded ht' hnew.held hx hy ?_
    rw [hnew.members, List.getElem?_append_right (Nat.le_refl _), Nat.sub_self]
    rfl
  · intro j hj
    refine item_congr ht h ht' hnew.held (List.getElem?_eq_getElem hj) ?_
    rw [hnew.members, List.getElem?_append_left hj]
    exact List.getElem?_eq_getElem hj

/-- Only a member can be replaced. -/
theorem member_of_run (ht : e.type.isContainer = true) (h : e.type.Held e.native)
    (htype : e.itemType index (e.type.members e.native).length = .ok t)
    (hrun : (replaceItem index x).run e = (.ok (), e')) :
    ∃ w, (e.type.members e.native)[index]? = some (t, w) := by
  have hshows := shows_members ht h
  obtain ⟨native, hchange, -⟩ :=
    (run_edit_eq_ok_iff (.replaceItem index x) h.wellFormed.valid).mp hrun
  obtain ⟨length, hcheck, -⟩ := bind_eq_ok_iff.mp hchange
  rw [checkIndex_of_length hshows.length] at hcheck
  by_cases hindex : index < (e.type.members e.native).length
  · have hc := List.getElem?_eq_getElem hindex
    cases htype.symm.trans (hshows.component hc).1
    exact ⟨_, hc⟩
  · rw [if_neg hindex] at hcheck
    cases hcheck

/-! ## The laws -/

/-- The laws of reading and writing the components of an encoded value, of which there are `n`.
    What is written may be any value of the variants that decoding produces. -/
structure AccessLaws (e : EncodedValue) (n : Nat) : Prop where
  length : e.length = .ok n
  item : ∀ i, (∃ c, e.item i = .ok c) ↔ i < n
  /-- What is put in a place is read there, and every other place is as it was. -/
  replaced : ∀ {i : Nat} {t : Descriptor} {x : Value} {e' : EncodedValue},
    e.itemType i n = .ok t → t.HasVariants x → (replaceItem i x).run e = (.ok (), e') →
      e'.length = .ok n ∧ (∃ c, encode t x = .ok c ∧ e'.item i = .ok c) ∧
        ∀ j, j ≠ i → e'.item j = e.item j
  /-- Of two values put in one place, only the second counts. -/
  replacedTwice : ∀ {i : Nat} {t : Descriptor} {x : Value} {e' : EncodedValue},
    e.itemType i n = .ok t → t.HasVariants x → (replaceItem i x).run e = (.ok (), e') →
      ∀ y e'', (replaceItem i y).run e' = (.ok (), e'') ↔ (replaceItem i y).run e = (.ok (), e'')
  /-- Putting back what was read encodes the same native value. -/
  putBack : ∀ {i : Nat} {c : EncodedValue}, e.item i = .ok c →
    ∃ bytes, e.type.encode e.native = .ok bytes ∧
      (replaceItem i c.native).run e = (.ok (), { e with bytes })
  /-- What is appended is read in the last place, and every other place is as it was. -/
  pushed : ∀ {t : Descriptor} {x : Value} {e' : EncodedValue},
    e.type.element? = some t → t.HasVariants x → (push x).run e = (.ok (), e') →
      e'.length = .ok (n + 1) ∧ (∃ c, encode t x = .ok c ∧ e'.item n = .ok c) ∧
        ∀ j < n, e'.item j = e.item j
  field : ∀ {struct : String} {fs : List (String × Descriptor)} {i : Nat}
    {f : String × Descriptor}, e.type = .struct struct fs → fs[i]? = some f →
      e.field f.1 = e.item i

/-- **READING AND WRITING COMPONENTS OBEY THE LAWS OF ACCESS**, in every container that was decoded
    or encoded: there is a component for each index below the length, and none beyond; an edit is
    read back where it was made, and nowhere else. -/
theorem access_laws (h : Opened e) (ht : e.type.isContainer = true) : ∃ n, e.AccessLaws n := by
  have hheld := h.held
  have hvalid := hheld.wellFormed.valid
  refine ⟨(e.type.members e.native).length, (shows_members ht hheld).length,
    fun i => exists_item_iff ht hheld, ?replaced, ?replacedTwice, ?putBack, ?pushed,
    fun htype hf => field_eq_item htype hheld hf⟩
  case replaced =>
    intro i t x e' htype hx hrun
    obtain ⟨w, hc⟩ := member_of_run ht hheld htype hrun
    obtain ⟨y, hy, hnew⟩ := replaced_of_run ht hheld hc hx hrun
    obtain ⟨hlength, hread, hothers⟩ := reads_of_replaced ht hheld hc hx hy hnew
    exact ⟨hlength, ⟨y, hy, hread⟩, hothers⟩
  case replacedTwice =>
    intro i t x e' htype hx hrun y e''
    obtain ⟨w, hc⟩ := member_of_run ht hheld htype hrun
    obtain ⟨_, -, hnew⟩ := replaced_of_run ht hheld hc hx hrun
    refine (run_edit_eq_ok_iff (.replaceItem i y) hnew.held.wellFormed.valid).trans ?_
    rw [hnew.again, hnew.type]
    exact (run_edit_eq_ok_iff (.replaceItem i y) hvalid).symm
  case putBack =>
    intro i c hc
    obtain ⟨m, hmember⟩ : ∃ m, (e.type.members e.native)[i]? = some m :=
      ⟨_, List.getElem?_eq_getElem ((exists_item_iff ht hheld).mp ⟨c, hc⟩)⟩
    obtain rfl := Except.ok.inj ((item_of_member ht hheld hmember).symm.trans hc)
    exact ⟨_, hheld.encode, (run_edit_eq_ok_iff (.replaceItem i _) hvalid).mpr
      ⟨e.native, change_of_member ht hheld hmember, encode_of_held hheld⟩⟩
  case pushed =>
    intro t x e' htype hx hrun
    obtain ⟨y, hy, hnew⟩ := pushed_of_run hheld htype hx hrun
    obtain ⟨hlength, hread, hothers⟩ := reads_of_pushed ht hheld hx hy hnew
    exact ⟨hlength, ⟨y, hy, hread⟩, hothers⟩

/-- Flags in one byte and a tail behind an offset: the second flag is set, and the first flag and
    the note are read as before. -/
theorem access_laws_order :
    let type : Descriptor := .struct "Order" [("paid", .bool), ("sent", .bool), ("note", .string)]
    let native (sent : Bool) : Value :=
      .struct [("paid", .bool true), ("sent", .bool sent), ("note", .str "hi")]
    let order : EncodedValue := ⟨type, [0x80, 0, 3, 0, 2, 104, 105], native false⟩
    let sent : EncodedValue := ⟨type, [0xC0, 0, 3, 0, 2, 104, 105], native true⟩
    decode .bare type order.bytes = .ok order ∧ order.AccessLaws 3 ∧
      (replaceItem 1 (.bool true)).run order = (.ok (), sent) ∧
      (∃ c, encode .bool (.bool true) = .ok c ∧ sent.item 1 = .ok c) ∧
      sent.item 0 = order.item 0 ∧ sent.item 2 = order.field "note" := by
  intro type native order sent
  have hwf : type.WellFormed := by
    refine .intro ⟨⟨trivial, ?_⟩, trivial, ?_⟩ ?_
    · show (List.map Prod.fst [("paid", bool), ("sent", bool), ("note", string)]).Nodup
      decide
    · intro c hc hd
      rcases List.mem_cons.mp hc with rfl | hc
      · exact ⟨1, by decide⟩
      · rcases List.mem_pair.mp hc with rfl | rfl
        · exact ⟨1, by decide⟩
        · exact absurd hd (by decide)
    · intro c hc
      rcases List.mem_cons.mp hc with rfl | hc
      · exact wellFormed_leaf rfl trivial
      · rcases List.mem_pair.mp hc with rfl | rfl <;> exact wellFormed_leaf rfl trivial
  have hdecode : decode .bare type order.bytes = .ok order := by decide +kernel
  obtain ⟨n, hlaws⟩ := access_laws (.decoded hwf hdecode (by decide)) rfl
  obtain rfl : n = 3 := Except.ok.inj (hlaws.length.symm.trans rfl)
  have hrun : (Edit.replaceItem 1 (.bool true)).run order = (.ok (), sent) := by decide +kernel
  have hx : bool.HasVariants (.bool true) := everywhere_leaf rfl trivial
  obtain ⟨-, hread, hothers⟩ := hlaws.replaced (t := bool) rfl hx hrun
  refine ⟨hdecode, hlaws, hrun, hread, hothers 0 (by decide), ?_⟩
  rw [hothers 2 (by decide)]
  exact (hlaws.field (i := 2) rfl rfl).symm

end EncodedValue

end AvmSandbox
