import AvmSandbox.Proofs.Codec.Extent
import AvmSandbox.Proofs.Codec.RowReading
import AvmSandbox.Proofs.Descriptor.Spelling

/-! # Shape — types of one name have the same encodings

    Types with one name differ in the names of structs and in whether a byte
    string is taken for an array of bytes.  On the wire nothing of that is seen:
    the same buffers are read, and the values that come out are the same once
    structs are taken for tuples and byte strings for lists of numbers.

    * `Value.plain`: what values of one shape have in common;
    * `SameWire`: types that are laid out and read alike;
    * `SameWire.staticArray`, `SameWire.dynamicArray` and `SameWire.tuple`: it is
      enough that the types inside are;
    * `sameWire_normal`: a type and its normal form;
    * `same_wire_of_sameShape`: types of one shape. -/

namespace AvmSandbox

/-! ## Values without their forms -/

namespace Value

/-- The bytes of a byte string as numbers. -/
def numbers (content : Bytes) : List Value := content.map fun b => uint b.toNat

mutual

/-- The value with structs as tuples and byte strings as lists of their bytes. -/
def plain : Value → Value
  | bytes content => list (numbers content)
  | list items => list (plainItems items)
  | tuple items => tuple (plainItems items)
  | struct fields => tuple (plainFields fields)
  | v => v

/-- The plain forms of a row of values. -/
def plainItems : List Value → List Value
  | [] => []
  | v :: vs => plain v :: plainItems vs

/-- The plain forms of a row of named values. -/
def plainFields : List (String × Value) → List Value
  | [] => []
  | (_, v) :: fs => plain v :: plainFields fs

end

theorem plainFields_zip {names : List String} {items : List Value}
    (h : items.length = names.length) : plainFields (names.zip items) = plainItems items := by
  induction names generalizing items with
  | nil =>
      rw [List.eq_nil_of_length_eq_zero h]
      rfl
  | cons name names ih =>
      cases items with
      | nil => cases h
      | cons v vs =>
          rw [List.zip_cons_cons, plainFields, plainItems, ih (Nat.succ.inj h)]

/-- Numbers are without a form already. -/
theorem plainItems_numbers (content : Bytes) : plainItems (numbers content) = numbers content := by
  induction content with
  | nil => rfl
  | cons b content ih =>
      show plain (uint b.toNat) :: plainItems (numbers content) = _
      rw [ih]
      rfl

end Value

namespace Slot

variable {p : Part} {read : Bytes → Result Value}

/-- A part of fixed length is one of exactly that length. -/
theorem fits_fixed_iff {length : Nat} :
    (Slot.fixed length read).Fits p ↔ ∃ raw, p = .fixed raw ∧ raw.length = length := by
  constructor
  · intro h
    cases h with
    | fixed raw => exact ⟨raw, rfl, rfl⟩
  · rintro ⟨raw, rfl, rfl⟩
    exact .fixed raw read

theorem fits_varying_iff : (Slot.varying read).Fits p ↔ ∃ raw, p = .varying raw := by
  constructor
  · intro h
    cases h with
    | varying raw => exact ⟨raw, rfl⟩
  · rintro ⟨raw, rfl⟩
    exact .varying raw read

end Slot

/-- Reading a row gives one value for each component. -/
theorem RowReads.length_eq {slots : List Slot} {parts : List Part} {vs : List Value}
    (h : RowReads slots parts vs) : vs.length = slots.length := by
  induction h with
  | nil => rfl
  | cons _ _ ih => rw [List.length_cons, List.length_cons, ih]

namespace Descriptor

theorem length_rowSlots (layout : Layout) (ts : List Descriptor) :
    (rowSlots layout ts).length = ts.length := by
  induction ts with
  | nil => rfl
  | cons t ts ih => rw [rowSlots, List.length_cons, List.length_cons, ih]

/-- A row that is read has one value for each of its types. -/
theorem length_of_readRow {layout : Layout} {ts : List Descriptor}
    {refuse : Malformation → Fault} {bytes : Bytes} {vs : List Value}
    (h : readRow refuse bytes (rowSlots layout ts) = .ok vs) : vs.length = ts.length := by
  obtain ⟨parts, -, -, hreads⟩ := isRow_of_readRow h
  rw [hreads.length_eq, length_rowSlots]

/-! ## Types that read the same buffers -/

/-- Whether all that is read as one type is read as another, as the same value but for its
    form. -/
def ReadsAlso (t u : Descriptor) : Prop :=
  ∀ layout bytes v, t.decodeIn layout bytes = .ok v →
    ∃ w, u.decodeIn layout bytes = .ok w ∧ w.plain = v.plain

/-- Whether two types are laid out and read alike. -/
structure SameWire (t u : Descriptor) : Prop where
  isBool : t.isBool = u.isBool
  isDynamic : t.isDynamic = u.isDynamic
  length : ∀ indexed, t.length? indexed = u.length? indexed
  forth : t.ReadsAlso u
  back : u.ReadsAlso t

/-- What a second type reads also, and a third one of the second, the third reads also. -/
theorem ReadsAlso.trans {t u c : Descriptor} (htu : t.ReadsAlso u) (huc : u.ReadsAlso c) :
    t.ReadsAlso c := by
  intro layout bytes v hv
  obtain ⟨w, hw, hplain⟩ := htu layout bytes v hv
  obtain ⟨x, hx, hplain'⟩ := huc layout bytes w hw
  exact ⟨x, hx, hplain'.trans hplain⟩

namespace SameWire

variable {t u c : Descriptor}

theorem refl (t : Descriptor) : SameWire t t :=
  ⟨rfl, rfl, fun _ => rfl, fun _ _ v hv => ⟨v, hv, rfl⟩, fun _ _ v hv => ⟨v, hv, rfl⟩⟩

theorem symm (h : SameWire t u) : SameWire u t :=
  ⟨h.isBool.symm, h.isDynamic.symm, fun indexed => (h.length indexed).symm, h.back, h.forth⟩

/-- Types that are alike on the wire to a third one are alike to each other. -/
theorem trans (htu : SameWire t u) (huc : SameWire u c) : SameWire t c :=
  ⟨htu.isBool.trans huc.isBool, htu.isDynamic.trans huc.isDynamic,
    fun indexed => (htu.length indexed).trans (huc.length indexed),
    htu.forth.trans huc.forth, huc.back.trans htu.back⟩

/-! ## Rows -/

/-- A component of a row is there for both types, and read alike. -/
theorem slot {layout : Layout} {p : Part} {v : Value} (h : SameWire t u)
    (hfits : (slotOf layout.isSome t (t.decodeIn layout)).Fits p)
    (hreads : (slotOf layout.isSome t (t.decodeIn layout)).Reads p v) :
    (slotOf layout.isSome u (u.decodeIn layout)).Fits p ∧
      ∃ w, (slotOf layout.isSome u (u.decodeIn layout)).Reads p w ∧ w.plain = v.plain := by
  rcases placement t with rfl | ⟨hbool, hdynamic⟩ | ⟨hbool, hstatic⟩
  · rw [eq_bool_of_isBool (t := u) h.isBool.symm]
    exact ⟨hfits, v, hreads, rfl⟩
  · rw [slotOf_varying hbool hdynamic] at hfits hreads
    rw [slotOf_varying (h.isBool ▸ hbool) (h.isDynamic ▸ hdynamic)]
    obtain ⟨raw, rfl⟩ := Slot.fits_varying_iff.mp hfits
    exact ⟨.varying raw _, h.forth layout raw v hreads⟩
  · cases hlength : t.length? layout.isSome with
    | none =>
        rw [slotOf_refused hbool hstatic hlength] at hreads
        exact hreads.elim
    | some n =>
        rw [slotOf_fixed hbool hstatic hlength] at hfits hreads
        rw [slotOf_fixed (h.isBool ▸ hbool) (h.isDynamic ▸ hstatic) (h.length _ ▸ hlength)]
        obtain ⟨raw, rfl, rfl⟩ := Slot.fits_fixed_iff.mp hfits
        exact ⟨.fixed raw _, h.forth layout raw v hreads⟩

/-- Rows of types that are alike are read from the same parts to the same values, by induction on
    them. -/
theorem rowReads {layout : Layout} {ts us : List Descriptor} {parts : List Part}
    {vs : List Value} (h : List.Forall₂ SameWire ts us)
    (hfits : List.Forall₂ Slot.Fits (rowSlots layout ts) parts)
    (hreads : RowReads (rowSlots layout ts) parts vs) :
    List.Forall₂ Slot.Fits (rowSlots layout us) parts ∧
      ∃ ws, RowReads (rowSlots layout us) parts ws ∧ Value.plainItems ws = Value.plainItems vs := by
  induction h generalizing parts vs with
  | nil =>
      cases hreads with
      | nil => exact ⟨.nil, [], .nil, rfl⟩
  | cons htu _ ih =>
      rw [rowSlots] at hfits hreads
      cases hfits with
      | cons hfit hfits =>
          cases hreads with
          | cons hread hreads =>
              obtain ⟨hfit', w, hread', hplain⟩ := htu.slot hfit hread
              obtain ⟨hfits', ws, hreads', hplains⟩ := ih hfits hreads
              refine ⟨.cons hfit' hfits', w :: ws, .cons hread' hreads', ?_⟩
              rw [Value.plainItems, Value.plainItems, hplain, hplains]

/-- A buffer that is read as a row of some types is read as one of types like them. -/
theorem readRow {layout : Layout} {ts us : List Descriptor} {refuse : Malformation → Fault}
    {bytes : Bytes} {vs : List Value} (h : List.Forall₂ SameWire ts us)
    (refuse' : Malformation → Fault)
    (hvs : AvmSandbox.readRow refuse bytes (rowSlots layout ts) = .ok vs) :
    ∃ ws, AvmSandbox.readRow refuse' bytes (rowSlots layout us) = .ok ws ∧
      Value.plainItems ws = Value.plainItems vs := by
  obtain ⟨parts, hrow, hfits, hreads⟩ := isRow_of_readRow hvs
  obtain ⟨hfits', ws, hreads', hplain⟩ := rowReads h hfits hreads
  exact ⟨ws, (readRow_eq_ok_iff hfits' hrow).mpr hreads', hplain⟩

end SameWire

/-- Sequences that ask for the same counts and checks, and have rows of types that are alike,
    read the same buffers. -/
theorem readsAlso_of_rows {t u : Descriptor} (ht : t.isSequence = true) (hu : u.isSequence = true)
    (hcount : ∀ n, t.TakesCount n → u.TakesCount n) (hfront : ∀ n, u.rowCount n = t.rowCount n)
    (hguard : ∀ bytes, t.GuardPasses bytes → u.GuardPasses bytes)
    (hrow : ∀ n, List.Forall₂ SameWire (t.rowTypes n) (u.rowTypes n))
    (hvalue : ∀ n vs ws, vs.length = (t.rowTypes n).length → ws.length = (u.rowTypes n).length →
      Value.plainItems ws = Value.plainItems vs → (u.rowValue ws).plain = (t.rowValue vs).plain) :
    t.ReadsAlso u := by
  intro layout bytes v hv
  obtain ⟨n, count, body, vs, htakes, hrowCount, hbytes, hpasses, hvs, rfl⟩ :=
    (decodeIn_sequence_eq_ok_iff ht).mp hv
  obtain ⟨ws, hws, hplain⟩ := SameWire.readRow (hrow n) u.refusal hvs
  refine ⟨u.rowValue ws, (decodeIn_sequence_eq_ok_iff hu).mpr ?_, ?_⟩
  · exact ⟨n, count, body, ws, hcount n htakes, (hfront n).trans hrowCount, hbytes,
      hguard bytes hpasses, hws, rfl⟩
  · exact hvalue n vs ws (length_of_readRow hvs) (length_of_readRow hws) hplain

/-! ## Sequences of types that are alike -/

namespace SameWire

variable {t u : Descriptor}

/-- The least length of a row depends on what is the same in both types. -/
theorem leastRow (h : SameWire t u) (n : Nat) : t.leastRow n = u.leastRow n := by
  rw [Descriptor.leastRow, Descriptor.leastRow, h.isBool, h.isDynamic, fixedLength?, fixedLength?,
    h.length]

theorem forall₂_replicate (h : SameWire t u) (n : Nat) :
    List.Forall₂ SameWire (List.replicate n t) (List.replicate n u) := by
  induction n with
  | zero => exact .nil
  | succ n ih => exact .cons h ih

theorem forall₂_symm {ts us : List Descriptor} (h : List.Forall₂ SameWire ts us) :
    List.Forall₂ SameWire us ts := by
  induction h with
  | nil => exact .nil
  | cons htu _ ih => exact .cons htu.symm ih

/-- Types that are alike have heads of the same widths. -/
theorem widths {ts us : List Descriptor} (h : List.Forall₂ SameWire ts us) (indexed : Bool) :
    Descriptor.widths indexed ts = Descriptor.widths indexed us := by
  induction h with
  | nil => rfl
  | cons htu _ ih =>
      simp only [Descriptor.widths, widthOf, ih, htu.isBool, htu.length]

/-- A row has a dynamic component if the other one has. -/
theorem anyDynamic {ts us : List Descriptor} (h : List.Forall₂ SameWire ts us) :
    Descriptor.anyDynamic ts = Descriptor.anyDynamic us := by
  induction h with
  | nil => rfl
  | cons htu _ ih => rw [Descriptor.anyDynamic, Descriptor.anyDynamic, ih, htu.isDynamic]

/-- The check in front of a static array passes for one type when it does for the other. -/
private theorem readsAlso_staticArray (h : SameWire t u) (n : Nat) :
    (staticArray t n).ReadsAlso (staticArray u n) := by
  refine readsAlso_of_rows rfl rfl ?_ ?_ ?_ ?_ ?_
  · intro count hcount
    exact hcount
  · intro count
    rfl
  · intro bytes hguard
    exact ⟨hguard.1, h.leastRow n ▸ hguard.2⟩
  · intro count
    exact h.forall₂_replicate count
  · intro count vs ws _ _ hplain
    exact congrArg Value.list hplain

/-- Static arrays of elements that are alike are alike. -/
theorem staticArray (h : SameWire t u) (n : Nat) :
    SameWire (staticArray t n) (staticArray u n) := by
  refine ⟨rfl, ?_, ?_, h.readsAlso_staticArray n, h.symm.readsAlso_staticArray n⟩
  · rw [Descriptor.isDynamic, Descriptor.isDynamic, h.isDynamic]
  · intro indexed
    rw [length?, length?, h.isBool, h.length]

/-- The number of elements is read before any element. -/
private theorem readsAlso_dynamicArray (h : SameWire t u) :
    (dynamicArray t).ReadsAlso (dynamicArray u) := by
  refine readsAlso_of_rows rfl rfl ?_ ?_ ?_ ?_ ?_
  · intro count hcount
    exact hcount
  · intro count
    rfl
  · intro bytes hguard
    exact hguard
  · intro count
    exact h.forall₂_replicate count
  · intro count vs ws _ _ hplain
    exact congrArg Value.list hplain

/-- Dynamic arrays of elements that are alike are alike. -/
theorem dynamicArray (h : SameWire t u) : SameWire (dynamicArray t) (dynamicArray u) :=
  ⟨rfl, rfl, fun _ => rfl, h.readsAlso_dynamicArray, h.symm.readsAlso_dynamicArray⟩

/-- Tuples are rows and nothing else. -/
private theorem readsAlso_tuple {ts us : List Descriptor} (h : List.Forall₂ SameWire ts us) :
    (tuple ts).ReadsAlso (tuple us) := by
  refine readsAlso_of_rows rfl rfl ?_ ?_ ?_ ?_ ?_
  · intro count hcount
    exact (show count = ts.length from hcount).trans h.length_eq
  · intro count
    rfl
  · intro bytes hguard
    exact hguard
  · intro count
    exact h
  · intro count vs ws _ _ hplain
    exact congrArg Value.tuple hplain

/-- Tuples of components that are alike are alike, one by one. -/
theorem tuple {ts us : List Descriptor} (h : List.Forall₂ SameWire ts us) :
    SameWire (tuple ts) (tuple us) := by
  refine ⟨rfl, ?_, ?_, readsAlso_tuple h, readsAlso_tuple (forall₂_symm h)⟩
  · rw [Descriptor.isDynamic, Descriptor.isDynamic, anyDynamic h]
  · intro indexed
    rw [length?, length?, widths h]

end SameWire

/-- A struct is laid out and read like the tuple of its components. -/
theorem sameWire_struct (name : String) (fs : List (String × Descriptor)) :
    SameWire (struct name fs) (tuple (fs.map Prod.snd)) := by
  have hlength : (fs.map Prod.snd).length = fs.length := List.length_map _
  have hvalue : ∀ vs : List Value, vs.length = (fs.map Prod.snd).length →
      ((struct name fs).rowValue vs).plain = .tuple (Value.plainItems vs) := by
    intro vs hvs
    show Value.tuple (Value.plainFields ((fs.map Prod.fst).zip vs)) = _
    rw [Value.plainFields_zip (by rw [hvs, List.length_map, List.length_map])]
  have hrefl : List.Forall₂ SameWire (fs.map Prod.snd) (fs.map Prod.snd) :=
    List.forall₂_same.mpr fun t _ => .refl t
  refine ⟨rfl, ?_, ?_, ?_, ?_⟩
  · rw [isDynamic, isDynamic, anyFieldDynamic_eq]
  · intro indexed
    rw [length?, length?, fieldWidths_eq]
  · refine readsAlso_of_rows rfl rfl ?_ (fun _ => rfl) (fun _ h => h) (fun _ => hrefl) ?_
    · intro count hcount
      exact (show count = fs.length from hcount).trans hlength.symm
    · intro count vs ws hvs _ hplain
      rw [hvalue vs hvs]
      exact congrArg Value.tuple hplain
  · refine readsAlso_of_rows rfl rfl ?_ (fun _ => rfl) (fun _ h => h) (fun _ => hrefl) ?_
    · intro count hcount
      exact (show count = (fs.map Prod.snd).length from hcount).trans hlength
    · intro count vs ws _ hws hplain
      rw [hvalue ws hws]
      exact congrArg Value.tuple hplain

/-! ## Byte strings -/

/-- The bytes of a byte string as the components of a row. -/
def byteParts (content : Bytes) : List Part := content.map fun b => .fixed [b]

section bytes

variable {layout : Layout} {bytes : Bytes} {v : Value}

/-- A byte is read from one byte, whatever it is. -/
theorem decodeIn_byte_eq_ok_iff :
    byte.decodeIn layout bytes = .ok v ↔ ∃ b, bytes = [b] ∧ v = .uint b.toNat := by
  have hnumber : ∀ b : UInt8, Bytes.toNat [b] = b.toNat := fun b => by simp [Bytes.toNat]
  rw [decodeIn, bind_eq_ok_iff]
  constructor
  · rintro ⟨_, hsize, hv⟩
    obtain ⟨b, rfl⟩ := List.length_eq_one_iff.mp (expectSize_eq_ok_iff.mp hsize)
    refine ⟨b, rfl, ?_⟩
    rw [← hnumber]
    exact (pure_eq_ok_iff.mp hv).symm
  · rintro ⟨b, rfl, rfl⟩
    exact ⟨(), expectSize_eq_ok_iff.mpr rfl, pure_eq_ok_iff.mpr (by rw [hnumber])⟩

/-- Bytes are laid out as a row by standing one after the other. -/
theorem isRow_byteParts {content : Bytes} : IsRow (byteParts content) bytes ↔ bytes = content := by
  have htail : ∀ content : Bytes, tailBytes (byteParts content) = [] := by
    intro content
    induction content with
    | nil => rfl
    | cons b content ih => exact ih
  have hheads : ∀ (content front : Bytes) (offset : Nat),
      HeadsAt ⟨0, 0⟩ offset (byteParts content) front ↔ front = content := by
    intro content
    induction content with
    | nil =>
        intro front offset
        exact Iff.rfl
    | cons b content ih =>
        intro front offset
        constructor
        · rintro ⟨rest, rfl, hrest⟩
          rw [(ih rest offset).mp hrest]
          rfl
        · rintro rfl
          exact ⟨content, rfl, (ih content offset).mpr rfl⟩
  rw [IsRow, htail]
  constructor
  · rintro ⟨front, hfront, rfl⟩
    rw [List.append_nil, (hheads content front _).mp hfront]
  · rintro rfl
    exact ⟨bytes, (hheads bytes bytes _).mpr rfl, (List.append_nil _).symm⟩

/-- Slots for bytes fit and read the bytes of a byte string, and nothing else. -/
theorem byteSlots_iff {n : Nat} {parts : List Part} {vs : List Value} :
    List.Forall₂ Slot.Fits (rowSlots layout (List.replicate n byte)) parts ∧
        RowReads (rowSlots layout (List.replicate n byte)) parts vs ↔
      ∃ content : Bytes, content.length = n ∧ parts = byteParts content ∧
        vs = Value.numbers content := by
  have hslots : ∀ n, rowSlots layout (List.replicate (n + 1) byte)
      = .fixed 1 (byte.decodeIn layout) :: rowSlots layout (List.replicate n byte) := fun n => rfl
  constructor
  · rintro ⟨hfits, hreads⟩
    induction n generalizing parts vs with
    | zero =>
        cases hreads with
        | nil => exact ⟨[], rfl, rfl, rfl⟩
    | succ n ih =>
        rw [hslots] at hfits hreads
        cases hfits with
        | cons hfit hfits =>
            cases hreads with
            | cons hread hreads =>
                obtain ⟨raw, rfl, -⟩ := Slot.fits_fixed_iff.mp hfit
                obtain ⟨b, rfl, rfl⟩ := decodeIn_byte_eq_ok_iff.mp hread
                obtain ⟨content, rfl, rfl, rfl⟩ := ih hfits hreads
                exact ⟨b :: content, rfl, rfl, rfl⟩
  · rintro ⟨content, rfl, rfl, rfl⟩
    induction content with
    | nil => exact ⟨.nil, .nil⟩
    | cons b content ih =>
        rw [List.length_cons, hslots]
        exact ⟨.cons (.fixed [b] _) ih.1,
          .cons (decodeIn_byte_eq_ok_iff.mpr ⟨b, rfl, rfl⟩) ih.2⟩

/-- A row of bytes is read as the bytes of the buffer. -/
theorem readRow_bytes_eq_ok_iff {refuse : Malformation → Fault} {n : Nat} {vs : List Value} :
    readRow refuse bytes (rowSlots layout (List.replicate n byte)) = .ok vs ↔
      bytes.length = n ∧ vs = Value.numbers bytes := by
  constructor
  · intro h
    obtain ⟨parts, hrow, hfits, hreads⟩ := isRow_of_readRow h
    obtain ⟨content, hlength, rfl, rfl⟩ := byteSlots_iff.mp ⟨hfits, hreads⟩
    obtain rfl := isRow_byteParts.mp hrow
    exact ⟨hlength, rfl⟩
  · rintro ⟨hlength, rfl⟩
    obtain ⟨hfits, hreads⟩ := byteSlots_iff.mpr ⟨bytes, hlength, rfl, rfl⟩
    exact (readRow_eq_ok_iff hfits (isRow_byteParts.mpr rfl)).mpr hreads

end bytes

/-- A byte string of fixed length is any buffer of that length. -/
theorem decodeIn_staticBytes_eq_ok_iff {layout : Layout} {n : Nat} {bytes : Bytes} {v : Value} :
    (staticBytes n).decodeIn layout bytes = .ok v ↔ bytes.length = n ∧ v = .bytes bytes := by
  rw [decodeIn, bind_eq_ok_iff]
  constructor
  · rintro ⟨_, hsize, hv⟩
    exact ⟨expectSize_eq_ok_iff.mp hsize, (pure_eq_ok_iff.mp hv).symm⟩
  · rintro ⟨hsize, rfl⟩
    exact ⟨(), expectSize_eq_ok_iff.mpr hsize, rfl⟩

/-- A static array of bytes is read like the byte string, if the reader takes arrays that long. -/
theorem decodeIn_byteArray_eq_ok_iff {layout : Layout} {n : Nat} {bytes : Bytes} {v : Value}
    (hn : n ≤ 8 * Limits.box) :
    (staticArray byte n).decodeIn layout bytes = .ok v ↔
      bytes.length = n ∧ v = .list (Value.numbers bytes) := by
  have hleast : byte.leastRow n = n := Nat.one_mul n
  rw [decodeIn_sequence_eq_ok_iff rfl]
  constructor
  · rintro ⟨count, front, body, vs, hcount, hfront, rfl, -, hvs, rfl⟩
    obtain rfl : count = n := hcount
    cases hfront
    obtain ⟨hlength, rfl⟩ := readRow_bytes_eq_ok_iff.mp hvs
    exact ⟨hlength, rfl⟩
  · rintro ⟨rfl, rfl⟩
    exact ⟨_, [], bytes, _, rfl, rfl, rfl, ⟨hn, Nat.le_of_eq hleast⟩,
      readRow_bytes_eq_ok_iff.mpr ⟨rfl, rfl⟩, rfl⟩

/-- A static array of bytes and a byte string of that length are read from the same buffers, as far
    as arrays are bounded. -/
theorem sameWire_staticBytes {n : Nat} (hn : n ≤ 8 * Limits.box) :
    SameWire (staticArray byte n) (staticBytes n) := by
  refine ⟨rfl, rfl, ?_, ?_, ?_⟩
  · intro indexed
    have hlt : 1 * n < Limits.length := by
      have hbits : 8 * Limits.box < Limits.length := by decide
      omega
    show (if 1 * n < Limits.length then some (1 * n) else none) = some n
    rw [if_pos hlt, Nat.one_mul]
  · intro layout bytes v hv
    obtain ⟨hlength, rfl⟩ := (decodeIn_byteArray_eq_ok_iff hn).mp hv
    refine ⟨_, decodeIn_staticBytes_eq_ok_iff.mpr ⟨hlength, rfl⟩, ?_⟩
    rw [Value.plain, Value.plain, Value.plainItems_numbers]
  · intro layout bytes v hv
    obtain ⟨hlength, rfl⟩ := decodeIn_staticBytes_eq_ok_iff.mp hv
    refine ⟨_, (decodeIn_byteArray_eq_ok_iff hn).mpr ⟨hlength, rfl⟩, ?_⟩
    rw [Value.plain, Value.plain, Value.plainItems_numbers]

/-- An array of bytes of free length is read like the byte string. -/
theorem decodeIn_freeByteArray_eq_ok_iff {layout : Layout} {bytes : Bytes} {v : Value} :
    (dynamicArray byte).decodeIn layout bytes = .ok v ↔
      ∃ content : Bytes, content.length ≤ Limits.twoByte ∧ bytes = counted content ∧
        v = .list (Value.numbers content) := by
  rw [decodeIn_sequence_eq_ok_iff rfl]
  constructor
  · rintro ⟨count, front, body, vs, -, hfront, rfl, -, hvs, rfl⟩
    obtain ⟨hle, rfl⟩ := twoBytes_eq_ok_iff.mp hfront
    obtain ⟨rfl, rfl⟩ := readRow_bytes_eq_ok_iff.mp hvs
    exact ⟨body, hle, rfl, rfl⟩
  · rintro ⟨content, hle, rfl, rfl⟩
    exact ⟨content.length, _, content, _, trivial, twoBytes_eq_ok_iff.mpr ⟨hle, rfl⟩, rfl, trivial,
      readRow_bytes_eq_ok_iff.mpr ⟨rfl, rfl⟩, rfl⟩

/-- A counted byte string is read from its bytes behind their number. -/
theorem decodeIn_dynamicBytes_eq_ok_iff {layout : Layout} {bytes : Bytes} {v : Value} :
    dynamicBytes.decodeIn layout bytes = .ok v ↔
      ∃ content : Bytes, content.length ≤ Limits.twoByte ∧ bytes = counted content ∧
        v = .bytes content := by
  rw [decodeIn, bind_eq_ok_iff]
  constructor
  · rintro ⟨content, hcontent, hv⟩
    obtain ⟨hle, hbytes⟩ := readCounted_eq_ok_iff.mp hcontent
    exact ⟨content, hle, hbytes, (pure_eq_ok_iff.mp hv).symm⟩
  · rintro ⟨content, hle, hbytes, rfl⟩
    exact ⟨content, readCounted_eq_ok_iff.mpr ⟨hle, hbytes⟩, rfl⟩

/-- A dynamic array of bytes and a counted byte string are read from the same buffers. -/
theorem sameWire_dynamicBytes : SameWire (dynamicArray byte) dynamicBytes := by
  refine ⟨rfl, rfl, fun _ => rfl, ?_, ?_⟩
  · intro layout bytes v hv
    obtain ⟨content, hle, hbytes, rfl⟩ := decodeIn_freeByteArray_eq_ok_iff.mp hv
    refine ⟨_, decodeIn_dynamicBytes_eq_ok_iff.mpr ⟨content, hle, hbytes, rfl⟩, ?_⟩
    rw [Value.plain, Value.plain, Value.plainItems_numbers]
  · intro layout bytes v hv
    obtain ⟨content, hle, hbytes, rfl⟩ := decodeIn_dynamicBytes_eq_ok_iff.mp hv
    refine ⟨_, decodeIn_freeByteArray_eq_ok_iff.mpr ⟨content, hle, hbytes, rfl⟩, ?_⟩
    rw [Value.plain, Value.plain, Value.plainItems_numbers]

/-! ## Types of one shape -/

/-- A type is laid out and read like its normal form. -/
theorem sameWire_normal {t : Descriptor} (ht : Throughout ArrayBounded t) :
    SameWire t t.normal := by
  have hrow : ∀ {ts : List Descriptor}, (∀ c ∈ ts, SameWire c c.normal) →
      SameWire (tuple ts) (tuple (ts.map normal)) := by
    intro ts hts
    refine SameWire.tuple (List.forall₂_map_right_iff.mpr (List.forall₂_same.mpr ?_))
    exact hts
  induction t using inductOn with
  | step t ih =>
      cases t with
      | staticArray t n =>
          -- an array of bytes is a byte string in normal form
          have hinner := ih t (List.mem_singleton_self t) (ht.inside (List.mem_singleton_self t))
          refine (hinner.staticArray n).trans ?_
          rw [normal, array]
          split
          · next hbyte =>
              rw [hbyte]
              exact sameWire_staticBytes ht.here
          · exact .refl _
      | dynamicArray t =>
          have hinner := ih t (List.mem_singleton_self t) (ht.inside (List.mem_singleton_self t))
          refine hinner.dynamicArray.trans ?_
          rw [normal, array]
          split
          · next hbyte =>
              rw [hbyte]
              exact sameWire_dynamicBytes
          · exact .refl _
      | tuple ts =>
          rw [normal, normalTypes_eq]
          exact hrow fun c hc => ih c hc (ht.inside hc)
      | struct name fs =>
          rw [normal, normalFields_eq]
          exact (sameWire_struct name fs).trans (hrow fun c hc => ih c hc (ht.inside hc))
      | _ => exact .refl _

variable {a b : Descriptor}

/-- **ONE SHAPE, ONE FORMAT**: types with one name are dynamic together, have the same lengths
    and read the same buffers, as values that differ only in their forms. -/
theorem same_wire_of_sameShape (ha : a.WellFormed) (hb : b.WellFormed)
    (h : a.sameShape b = true) :
    a.isDynamic = b.isDynamic ∧ (∀ indexed, a.length? indexed = b.length? indexed) ∧
      ∀ layout bytes,
        ((∃ v, a.decodeIn layout bytes = .ok v) ↔ ∃ w, b.decodeIn layout bytes = .ok w) ∧
        ∀ v w, a.decodeIn layout bytes = .ok v → b.decodeIn layout bytes = .ok w →
          v.plain = w.plain := by
  have hwire : SameWire a b := by
    have hnormal := sameWire_normal (ha.mono fun _ h => h.bounded)
    rw [sameShape_iff.mp h] at hnormal
    exact hnormal.trans (sameWire_normal (hb.mono fun _ h => h.bounded)).symm
  refine ⟨hwire.isDynamic, hwire.length, fun layout bytes => ⟨⟨?_, ?_⟩, ?_⟩⟩
  · rintro ⟨v, hv⟩
    obtain ⟨w, hw, -⟩ := hwire.forth layout bytes v hv
    exact ⟨w, hw⟩
  · rintro ⟨w, hw⟩
    obtain ⟨v, hv, -⟩ := hwire.back layout bytes w hw
    exact ⟨v, hv⟩
  · intro v w hv hw
    obtain ⟨x, hx, hplain⟩ := hwire.forth layout bytes v hv
    obtain rfl : x = w := Except.ok.inj (hx.symm.trans hw)
    exact hplain.symm

/-- A struct with an array of two bytes and a tuple with a string of two bytes are named alike. -/
theorem same_wire_of_sameShape_tagged :
    let tagged := struct "Tagged" [("tag", staticArray byte 2), ("text", string)]
    let pair := tuple [staticBytes 2, string]
    let bytes : Bytes := [7, 8, 0, 4, 0, 1, 0x61]
    let v := Value.struct [("tag", .list [.uint 7, .uint 8]), ("text", .str "a")]
    let w := Value.tuple [.bytes [7, 8], .str "a"]
    tagged.WellFormed ∧ pair.WellFormed ∧ tagged.sameShape pair = true ∧
      tagged.decode bytes = .ok v ∧ pair.decode bytes = .ok w ∧ v.plain = w.plain := by
  intro tagged pair bytes v w
  have hbyte : byte.WellFormed := wellFormed_leaf rfl trivial
  have hstring : string.WellFormed := wellFormed_leaf rfl trivial
  have htag : (staticArray byte 2).WellFormed := by
    refine .intro ⟨⟨trivial, trivial⟩, ?_, ?_⟩ ?_
    · show 2 ≤ 8 * Limits.box
      decide
    · intro c hc _
      rw [List.mem_singleton.mp hc]
      exact ⟨1, by decide⟩
    · intro c hc
      rw [List.mem_singleton.mp hc]
      exact hbyte
  have htagged : tagged.WellFormed := by
    refine .intro ⟨⟨trivial, ?_⟩, trivial, ?_⟩ ?_
    · show (List.map Prod.fst [("tag", staticArray byte 2), ("text", string)]).Nodup
      decide
    · intro c hc hd
      rcases List.mem_pair.mp hc with rfl | rfl
      · exact ⟨2, by decide⟩
      · exact absurd hd (by decide)
    · intro c hc
      rcases List.mem_pair.mp hc with rfl | rfl
      · exact htag
      · exact hstring
  have hpair : pair.WellFormed := by
    refine .intro ⟨⟨trivial, trivial⟩, trivial, ?_⟩ ?_
    · intro c hc hd
      rcases List.mem_pair.mp hc with rfl | rfl
      · exact ⟨2, by decide⟩
      · exact absurd hd (by decide)
    · intro c hc
      rcases List.mem_pair.mp hc with rfl | rfl
      · exact wellFormed_leaf rfl trivial
      · exact hstring
  have hshape : tagged.sameShape pair = true := by decide +kernel
  have hv : tagged.decode bytes = .ok v := by decide +kernel
  have hw : pair.decode bytes = .ok w := by decide +kernel
  obtain ⟨-, -, hreads⟩ := same_wire_of_sameShape htagged hpair hshape
  exact ⟨htagged, hpair, hshape, hv, hw, (hreads none bytes).2 v w hv hw⟩

end Descriptor

end AvmSandbox
