import AvmSandbox.Proofs.Codec.MachineRow

/-! # Machine heads — rows of types near the limit

    The positions in an array never come near 64 bits: its elements are as wide
    as each other, and the buffer would have to be longer than half of the
    address space.  A component of a tuple or struct may end beyond them, or have
    a length that cannot be summed.  Up to such a component a row is read like
    any other, and at it the machine stops.

    * `TooLongAt`: whether the machine stops at a component;
    * `HeadsFit`: whether it does not at any, at every depth;
    * `FitsFrom`: the same for a row, with `fitsFrom_of_components` and
      `fitsFrom_replicate`;
    * `machineRow_agrees` and `machineElements_agrees`: rows that fit are read
      alike;
    * `StopsBehind`, `readHeads_stops`: rows that do not fit are not read. -/

namespace AvmSandbox

namespace Descriptor

variable {t c : Descriptor} {ts : List Descriptor} {indexed : Bool} {n run pos left bound : Nat}
  {stops : Prop} {layout : Layout}

/-! ## Heads -/

/-- The width of the head of a component. -/
def headWidth (indexed : Bool) (t : Descriptor) : Width :=
  if t.isDynamic then .bytes 2 else widthOf t (t.length? indexed)

/-- Whether a machine cannot count the length of a static component or, behind `pos` bytes, the
    position of its end. -/
def TooLongAt (indexed : Bool) (pos : Nat) (t : Descriptor) : Prop :=
  t.isDynamic = false ∧
    (Oversums indexed t ∨ ∃ w, t.length? indexed = some w ∧ Limits.length ≤ pos + w)

/-- Whether a component of a tuple or struct is too long behind the `m` bytes of the heads in front
    of it, which a buffer can have. -/
def Outgrows (indexed : Bool) (m : Nat) (t : Descriptor) : Prop :=
  ∃ front c rest, t.components? = some (front ++ c :: rest) ∧
    rowLength 0 (front.map (headWidth indexed)) = some m ∧ 2 * m < Limits.length ∧
      c.TooLongAt indexed m

/-- Whether a machine can count the lengths of the elements of an array, and the lengths and
    positions of the components of a tuple or struct. -/
structure HeadsFitHere (t : Descriptor) : Prop where
  elements : ∀ c ∈ t.element?, c.isDynamic = false → ∀ indexed, ¬Oversums indexed c
  components : ∀ indexed m, ¬t.Outgrows indexed m

/-- Whether all lengths and positions fit in 64 bits, at every depth. -/
def HeadsFit : Descriptor → Prop := Throughout HeadsFitHere

/-- Arrays by themselves have nothing to be summed. -/
theorem not_oversums_of_arrays (h : Throughout (fun t => t.components? = none) t) :
    ¬Oversums indexed t := by
  intro hover
  induction hover with
  | sum hts | component hts =>
      rw [h.here] at hts
      cases hts
  | element _ ih => exact ih (h.inside (List.mem_singleton_self _))

/-- All lengths and positions of arrays fit, as long as there are no tuples or structs in them. -/
theorem headsFit_of_arrays (h : Throughout (fun t => t.components? = none) t) : t.HeadsFit := by
  induction h with
  | @intro t hnone hinner ih =>
      refine .intro ⟨?_, ?_⟩ ih
      · intro c hc _ indexed
        cases t with
        | staticArray _ _ | dynamicArray _ =>
            cases hc
            exact not_oversums_of_arrays (hinner c (List.mem_singleton_self c))
        | staticBytes _ | dynamicBytes =>
            cases hc
            exact not_oversums_of_isMeasured rfl
        | _ => cases hc
      · rintro indexed m ⟨front, c, rest, hts, -⟩
        rw [hnone] at hts
        cases hts

/-- Whether the components of a row fit or may stop the machine, when `pos` bytes are in front and
    `run` bits are in the current byte. -/
def FitsFrom (stops : Prop) (indexed : Bool) (pos run : Nat) (ts : List Descriptor) : Prop :=
  ∀ front c rest m, ts = front ++ c :: rest →
    rowLength run (front.map (headWidth indexed)) = some m → 2 * (pos + m) < Limits.length →
      c.TooLongAt indexed (pos + m) → stops

theorem FitsFrom.head (h : FitsFrom stops indexed pos run (t :: ts))
    (hpos : 2 * pos < Limits.length) (htoo : t.TooLongAt indexed pos) : stops :=
  h [] t ts 0 rfl rfl hpos htoo

theorem FitsFrom.tail {run' : Nat} (h : FitsFrom stops indexed pos run (t :: ts)) (width : Nat)
    (hwidth : ∀ ws, rowLength run (headWidth indexed t :: ws) =
      (rowLength run' ws).map fun n => width + n) :
    FitsFrom stops indexed (pos + width) run' ts := by
  intro front c rest m hts hm hpos
  have hmore := h (t :: front) c rest (width + m) (by rw [hts]; rfl)
    (by rw [List.map_cons, hwidth, hm, Option.map_some])
  rw [← Nat.add_assoc] at hmore
  exact hmore hpos

theorem headWidth_of_isBool (hb : t.isBool = true) : t.headWidth indexed = .bit := by
  rw [eq_bool_of_isBool hb, headWidth, if_neg (by simp [isDynamic]), widthOf_of_isBool rfl]

theorem headWidth_of_isDynamic (hd : t.isDynamic = true) : t.headWidth indexed = .bytes 2 :=
  if_pos hd

theorem headWidth_of_length? (hb : t.isBool = false) (hn : t.length? indexed = some n) :
    t.headWidth indexed = .bytes n := by
  rw [headWidth, isDynamic_of_length? hn, if_neg (by simp), hn, widthOf_some hb]

/-- The components of a tuple or struct fit as the type says. -/
theorem fitsFrom_of_components (hts : t.components? = some ts) :
    FitsFrom (¬t.HeadsFit) indexed 0 0 ts := by
  intro front c rest m hsplit hm hpos htoo hfit
  rw [Nat.zero_add] at hpos htoo
  exact hfit.here.components indexed m ⟨front, c, rest, hsplit ▸ hts, hm, hpos, htoo⟩

/-- The elements of an array fit if the length of one does: behind another that a buffer holds, it
    ends at most twice as far as the bytes that are behind. -/
theorem fitsFrom_replicate (hc : c.NumbersPermitted)
    (hstops : c.isDynamic = false → Oversums indexed c → stops) (count : Nat) :
    FitsFrom stops indexed 0 0 (List.replicate count c) := by
  rintro front d rest m hsplit hm hpos ⟨hd, htoo⟩
  have hlimit : Limits.length = 2 ^ 64 := rfl
  have hmem : ∀ x ∈ front ++ d :: rest, x = c := fun x hx =>
    List.eq_of_mem_replicate (hsplit ▸ hx)
  obtain rfl : d = c := hmem d (by simp)
  rcases htoo with hover | ⟨w, hw, hle⟩
  · exact hstops hd hover
  cases hb : d.isBool with
  | true =>
      rw [eq_bool_of_isBool hb] at hw
      cases hw
      omega
  | false =>
      -- all components before are the same, so their widths are a multiple
      have hfront : front = List.replicate front.length d :=
        List.eq_replicate_iff.mpr ⟨rfl, fun x hx => hmem x (by simp [hx])⟩
      rw [hfront, List.map_replicate, headWidth_of_length? hb hw, rowLength_replicate_bytes] at hm
      cases hmachine : d.machineLength indexed with
      | error e => exact hstops hd (machineLength_eq_error_iff.mp hmachine).2
      | ok found =>
          obtain rfl : found = some w := (machineLength_eq_ok hmachine).trans hw
          have hlt := machineLength_lt hc hmachine
          cases hlength : front.length with
          | zero =>
              rw [hlength] at hm
              cases hm
              omega
          | succ k =>
              rw [hlength] at hm
              have hm : w * (k + 1) = m := Option.some.inj hm
              have hle' : w ≤ w * (k + 1) := Nat.le_mul_of_pos_right w (Nat.succ_pos k)
              omega

/-! ## Components -/

theorem machineSlots_replicate (layout : Layout) (n : Nat) (t : Descriptor) :
    machineSlots layout (List.replicate n t) =
      List.replicate n (machineSlot layout.isSome t (machineDecode layout t)) := by
  induction n with
  | zero => rw [List.replicate_zero, machineSlots, List.replicate_zero]
  | succ n ih => rw [List.replicate_succ, machineSlots, ih, List.replicate_succ]

theorem machineFields_eq (layout : Layout) (fs : List (String × Descriptor)) :
    machineFields layout fs = machineSlots layout (fs.map Prod.snd) := by
  induction fs with
  | nil => rw [machineFields, List.map_nil, machineSlots]
  | cons f fs ih =>
      obtain ⟨name, t⟩ := f
      rw [machineFields, List.map_cons, machineSlots, ih]

/-- How a machine reads a component, and how it is read. -/
inductive SlotIs (indexed : Bool) (t : Descriptor) (read read' : Bytes → Result Value) :
    Slot → Slot → Prop where
  | bit (hb : t.isBool = true) : SlotIs indexed t read read' .bit .bit
  | varying (hd : t.isDynamic = true) : SlotIs indexed t read read' (.varying read) (.varying read')
  | fixed {n : Nat} (hb : t.isBool = false) (hd : t.isDynamic = false)
      (hmachine : t.machineLength indexed = .ok (some n)) :
      SlotIs indexed t read read' (.fixed n read) (.fixed n read')
  | refused (hb : t.isBool = false) (hd : t.isDynamic = false)
      (hmachine : t.machineLength indexed = .ok none) :
      SlotIs indexed t read read' (.refused (t.refusal .unbounded)) (.refused (t.refusal .unbounded))
  | stopped {slot : Slot} (hd : t.isDynamic = false) (h : Oversums indexed t) :
      SlotIs indexed t read read' (.refused .lengthOverflow) slot

theorem slotIs (indexed : Bool) (t : Descriptor) (read read' : Bytes → Result Value) :
    SlotIs indexed t read read' (machineSlot indexed t read) (slotOf indexed t read') := by
  cases hb : t.isBool with
  | true =>
      rw [machineSlot, slotOf, if_pos hb, if_pos hb]
      exact .bit hb
  | false =>
      cases hd : t.isDynamic with
      | true =>
          rw [machineSlot, slotOf_varying hb hd, if_neg (by simp [hb]), if_pos hd]
          exact .varying hd
      | false =>
          rw [machineSlot, if_neg (by simp [hb]), if_neg (by simp [hd])]
          cases hmachine : t.machineLength indexed with
          | error e =>
              obtain ⟨rfl, hover⟩ := machineLength_eq_error_iff.mp hmachine
              exact .stopped hd hover
          | ok found =>
              have hfound := machineLength_eq_ok hmachine
              cases found with
              | none =>
                  rw [slotOf_refused hb hd hfound.symm]
                  exact .refused hb hd hmachine
              | some n =>
                  rw [slotOf_fixed hb hd hfound.symm]
                  exact .fixed hb hd hmachine

/-! ## Rows -/

/-- The bits of a byte that are to be read yet, behind `run` of them. -/
theorem bitsLeft_of_run (hrun : run < 8) (hleft : left = (8 - run) % 8) :
    (if left = 0 then 7 else left - 1) = (8 - (run + 1) % 8) % 8 ∧ (left = 0 ↔ run = 0) := by
  split
  · omega
  · omega

theorem refusal_ne (t : Descriptor) (cause : Malformation) :
    t.refusal cause ≠ .lengthOverflow := by
  simp [refusal]

/-- **A ROW OF TYPES IS READ ALIKE** up to where it fits. -/
theorem rowAgrees_row (hbound : 2 * bound < Limits.length) (hrun : run < 8)
    (hleft : left = (8 - run) % 8)
    (hdecode : ∀ t ∈ ts, ∀ raw, raw.length ≤ bound →
      AgreesUnless stops (t.machineDecode layout raw) (t.decodeIn layout raw))
    (hfit : FitsFrom stops layout.isSome pos run ts) :
    RowAgrees stops bound pos left (machineSlots layout ts) (rowSlots layout ts) ∧
      CutsAllowed stops bound pos left (machineSlots layout ts) := by
  have hlimit : Limits.length = 2 ^ 64 := rfl
  induction ts generalizing pos left run with
  | nil => exact ⟨.nil, trivial⟩
  | cons t ts ih =>
      rw [List.forall_mem_cons] at hdecode
      rw [machineSlots, rowSlots]
      have hslot := slotIs layout.isSome t (machineDecode layout t) (decodeIn layout t)
      generalize machineSlot layout.isSome t (machineDecode layout t) = slot at hslot
      generalize slotOf layout.isSome t (decodeIn layout t) = slot' at hslot
      -- no buffer has half of 64 bits of bytes to be behind
      by_cases hpos : 2 * pos < Limits.length
      · cases hslot with
        | bit hb =>
            obtain ⟨hnext, hzero⟩ := bitsLeft_of_run hrun hleft
            have hwidth : ∀ ws, rowLength run (headWidth layout.isSome t :: ws) =
                (rowLength ((run + 1) % 8) ws).map fun n => Slot.bit.headSize left + n := by
              intro ws
              rw [headWidth_of_isBool hb, rowLength, Slot.headSize]
              simp only [hzero]
            have hrest := ih (Nat.mod_lt _ (by omega)) hnext hdecode.2 (hfit.tail _ hwidth)
            refine ⟨.cons .bit hrest.1, ?_, hrest.2⟩
            have hsize := Slot.headSize_bit_le left
            exact fun hle => .inr (by omega)
        | varying hd =>
            have hrest := ih (by omega : (0 : Nat) < 8) rfl hdecode.2
              (hfit.tail 2 fun ws => by rw [headWidth_of_isDynamic hd, rowLength])
            refine ⟨.cons (.varying hdecode.1) hrest.1, ?_, hrest.2⟩
            intro hle
            rw [Slot.headSize] at hle
            exact .inr (by omega)
        | @fixed n hb hd hmachine =>
            have hn := (machineLength_eq_ok hmachine).symm
            have hrest := ih (by omega : (0 : Nat) < 8) rfl hdecode.2
              (hfit.tail n fun ws => by rw [headWidth_of_length? hb hn, rowLength])
            refine ⟨.cons (.fixed hdecode.1) hrest.1, ?_, hrest.2⟩
            intro hle
            exact .inl (hfit.head hpos ⟨hd, .inr ⟨n, hn, hle⟩⟩)
        | refused => exact ⟨.refused (refusal_ne t _), fun hle => .inr (by omega)⟩
        | stopped hd hover =>
            exact ⟨.stopped (hfit.head hpos ⟨hd, .inl hover⟩), fun hle => .inr (by omega)⟩
      · exact ⟨.beyond (by omega), cutsAllowed_of_beyond (by omega)⟩

/-- A row of types is read alike up to where it fits, and not further. -/
theorem machineRow_agrees {bytes : Bytes} (t : Descriptor) (hbytes : 2 * bytes.length < Limits.length)
    (hdecode : ∀ c ∈ ts, ∀ raw, raw.length ≤ bytes.length →
      AgreesUnless stops (c.machineDecode layout raw) (c.decodeIn layout raw))
    (hfit : FitsFrom stops layout.isSome 0 0 ts) :
    AgreesUnless stops (machineRow t.refusal bytes (machineSlots layout ts))
      (readRow t.refusal bytes (rowSlots layout ts)) := by
  obtain ⟨hrow, hcuts⟩ := rowAgrees_row hbytes (by omega : (0 : Nat) < 8) rfl hdecode hfit
  exact readRow_agrees t.refusal_ne (Nat.le_refl _) (rowAgrees_fitSlots hrow hcuts)

/-- The elements of an array are read alike unless the length of one stops the machine. -/
theorem machineElements_agrees {bytes : Bytes} (t : Descriptor) (hc : c.NumbersPermitted)
    (hbytes : 2 * bytes.length < Limits.length)
    (hdecode : ∀ raw, raw.length ≤ bytes.length →
      AgreesUnless stops (c.machineDecode layout raw) (c.decodeIn layout raw))
    (hstops : c.isDynamic = false → Oversums layout.isSome c → stops) (count : Nat) :
    AgreesUnless stops
      (machineRow t.refusal bytes
        (List.replicate count (machineSlot layout.isSome c (machineDecode layout c))))
      (readRow t.refusal bytes
        (List.replicate count (slotOf layout.isSome c (decodeIn layout c)))) := by
  rw [← machineSlots_replicate, ← rowSlots_replicate]
  refine machineRow_agrees t hbytes ?_ (fitsFrom_replicate hc hstops count)
  intro d hd
  rwa [List.eq_of_mem_replicate hd]

/-! ## Rows that do not fit -/

/-- A row is refused where a component is too long. -/
theorem fitSlots_of_tooLongAt (h : t.TooLongAt layout.isSome pos) (hpos : 2 * pos < Limits.length)
    (left : Nat) (ts : List Descriptor) :
    ∃ slots, fitSlots [] pos left (machineSlots layout (t :: ts)) =
      .refused .lengthOverflow :: slots := by
  have hlimit : Limits.length = 2 ^ 64 := rfl
  obtain ⟨hd, htoo⟩ := h
  -- whatever the machine finds for the component is too long to stand here
  have hmachine : ∀ found, t.machineLength layout.isSome = .ok found →
      ∃ w, found = some w ∧ Limits.length ≤ pos + w := by
    intro found hfound
    rcases htoo with hover | ⟨w, hw, hle⟩
    · rw [machineLength_eq_error_iff.mpr ⟨rfl, hover⟩] at hfound
      cases hfound
    · exact ⟨w, (machineLength_eq_ok hfound).trans hw, hle⟩
  rw [machineSlots]
  have hslot := slotIs layout.isSome t (machineDecode layout t) (decodeIn layout t)
  generalize machineSlot layout.isSome t (machineDecode layout t) = slot at hslot
  generalize slotOf layout.isSome t (decodeIn layout t) = slot' at hslot
  obtain ⟨hlt, hfit⟩ | ⟨-, hfit⟩ := fitSlots_cons pos left slot (machineSlots layout ts)
  · cases hslot with
    | bit hb =>
        rw [eq_bool_of_isBool hb] at hmachine
        obtain ⟨w, hw, hle⟩ := hmachine _ rfl
        cases hw
        omega
    | varying hdynamic =>
        rw [hd] at hdynamic
        cases hdynamic
    | fixed _ _ hn =>
        obtain ⟨w, hw, hle⟩ := hmachine _ hn
        cases hw
        rw [Slot.headSize] at hlt
        omega
    | refused _ _ hn =>
        obtain ⟨w, hw, -⟩ := hmachine _ hn
        cases hw
    | stopped => exact ⟨_, hfit⟩
  · exact ⟨_, hfit⟩

/-- Whether reading stops the machine at a component that is too long, when heads of the widths `ws`
    are in front of it and the buffer ends with them. -/
def StopsBehind (refuse : Malformation → Fault) (c : Descriptor) (ws : List Width)
    (slots : List Slot) : Prop :=
  ∀ ⦃run pos m behind : Nat⦄ ⦃bytes : Bytes⦄ ⦃bits : Unread⦄ (done : List Cell),
    rowLength run ws = some m → run < 8 → 2 * (pos + m) < Limits.length →
    c.TooLongAt false (pos + m) → bytes.length = m → bits.count = (8 - run) % 8 →
    readHeads refuse behind bytes bits done (fitSlots [] pos bits.count slots) =
      .error .lengthOverflow

namespace StopsBehind

variable {refuse : Malformation → Fault} {ws : List Width} {slots : List Slot}
  {read : Bytes → Result Value}

theorem here (refuse : Malformation → Fault) (c : Descriptor) (rest : List Descriptor) :
    StopsBehind refuse c [] (machineSlots none (c :: rest)) := by
  intro run pos m behind bytes bits done hm _ hpos hc _ _
  cases hm
  have hc : c.TooLongAt (Option.isSome (none : Layout)) pos := hc
  obtain ⟨slots, hslots⟩ := fitSlots_of_tooLongAt hc (by omega) bits.count rest
  rw [hslots]
  rfl

/-- A bit is taken from the byte that is being read, or from the next one. -/
theorem bit (h : StopsBehind refuse c ws slots) :
    StopsBehind refuse c (.bit :: ws) (.bit :: slots) := by
  intro run pos m behind bytes bits done hm hrun hpos hc hbytes hbits
  have hlimit : Limits.length = 2 ^ 64 := rfl
  rw [rowLength] at hm
  obtain ⟨m, hrow, rfl⟩ := Option.map_eq_some_iff.mp hm
  obtain ⟨hnext, hzero⟩ := bitsLeft_of_run hrun hbits
  have hmod : (run + 1) % 8 < 8 := Nat.mod_lt _ (by omega)
  have hsize := Slot.headSize_bit_le bits.count
  rw [← Nat.add_assoc] at hpos hc
  obtain ⟨count, byte⟩ := bits
  cases count with
  | succ count =>
      have hrun : run ≠ 0 := fun h => Nat.succ_ne_zero count (hzero.mpr h)
      rw [if_neg hrun] at hpos hc hbytes
      rw [Nat.zero_add] at hbytes
      rw [fitSlots_of_lt (by omega)]
      exact h _ hrow hmod hpos hc hbytes hnext
  | zero =>
      obtain rfl : run = 0 := hzero.mp rfl
      rw [if_pos rfl] at hpos hc hbytes
      rw [fitSlots_of_lt (by omega)]
      cases bytes with
      | nil =>
          rw [List.length_nil] at hbytes
          omega
      | cons first bytes =>
          rw [List.length_cons] at hbytes
          exact h _ hrow hmod hpos hc (by omega) hnext

/-- An offset takes two bytes. -/
theorem varying (h : StopsBehind refuse c ws slots) :
    StopsBehind refuse c (.bytes 2 :: ws) (.varying read :: slots) := by
  intro run pos m behind bytes bits done hm _ hpos hc hbytes _
  have hlimit : Limits.length = 2 ^ 64 := rfl
  rw [rowLength] at hm
  obtain ⟨m, hrow, rfl⟩ := Option.map_eq_some_iff.mp hm
  rw [← Nat.add_assoc] at hpos hc
  rw [fitSlots_of_lt (by rw [Slot.headSize]; omega)]
  cases bytes with
  | nil =>
      rw [List.length_nil] at hbytes
      omega
  | cons hi bytes =>
      cases bytes with
      | nil =>
          rw [List.length_singleton] at hbytes
          omega
      | cons lo bytes =>
          rw [List.length_cons, List.length_cons] at hbytes
          exact h _ hrow (by omega) hpos hc (by omega) rfl

/-- A component of fixed length takes that many bytes, unless it stops the machine itself. -/
theorem fixed (hread : ∀ raw : Bytes, 2 * raw.length < Limits.length → raw.length = n →
      (∃ v, read raw = .ok v) ∨ read raw = .error .lengthOverflow)
    (h : StopsBehind refuse c ws slots) :
    StopsBehind refuse c (.bytes n :: ws) (.fixed n read :: slots) := by
  intro run pos m behind bytes bits done hm _ hpos hc hbytes _
  have hlimit : Limits.length = 2 ^ 64 := rfl
  rw [rowLength] at hm
  obtain ⟨m, hrow, rfl⟩ := Option.map_eq_some_iff.mp hm
  rw [← Nat.add_assoc] at hpos hc
  have htake : (bytes.take n).length = n := by
    rw [List.length_take]
    omega
  rw [fitSlots_of_lt (by rw [Slot.headSize]; omega), readHeads, if_neg (by omega)]
  obtain ⟨v, hv⟩ | hstop := hread (bytes.take n) (by omega) htake
  · rw [hv]
    exact h _ hrow (by omega) hpos hc (by rw [List.length_drop]; omega) rfl
  · rw [hstop]

theorem stopped : StopsBehind refuse c ws (.refused .lengthOverflow :: slots) := by
  intro run pos m behind bytes bits done _ _ _ _ _ _
  obtain ⟨-, hfit⟩ | ⟨-, hfit⟩ := fitSlots_cons pos bits.count (.refused .lengthOverflow) slots
  · rw [hfit]
    rfl
  · rw [hfit]
    rfl

end StopsBehind

/-- **THE MACHINE STOPS** at a component that is too long when the buffer ends in front of it, by
    induction on the components in front, each of which is read or stops the machine itself. -/
theorem readHeads_stops {front rest : List Descriptor} {refuse : Malformation → Fault}
    (hread : ∀ x ∈ front, ∀ raw : Bytes, 2 * raw.length < Limits.length →
      x.fixedLength? = some raw.length →
        (∃ v, x.machineDecode none raw = .ok v) ∨
          x.machineDecode none raw = .error .lengthOverflow) :
    StopsBehind refuse c (front.map (headWidth false)) (machineSlots none (front ++ c :: rest)) := by
  induction front with
  | nil => exact .here refuse c rest
  | cons x front ih =>
      rw [List.forall_mem_cons] at hread
      have hrest := ih hread.2
      rw [List.map_cons, List.cons_append, machineSlots]
      have hslot := slotIs false x (machineDecode none x) (decodeIn none x)
      dsimp only [Option.isSome]
      generalize machineSlot false x (machineDecode none x) = slot at hslot
      generalize slotOf false x (decodeIn none x) = slot' at hslot
      cases hslot with
      | bit hb =>
          rw [headWidth_of_isBool hb]
          exact hrest.bit
      | varying hd =>
          rw [headWidth_of_isDynamic hd]
          exact hrest.varying
      | @fixed n hb hd hmachine =>
          have hn := (machineLength_eq_ok hmachine).symm
          rw [headWidth_of_length? hb hn]
          refine hrest.fixed fun raw hraw hlength => hread.1 raw hraw ?_
          rw [hlength]
          exact hn
      | refused hb hd hmachine =>
          -- a component without a length leaves no position to be too long at
          rw [headWidth, hd, ← machineLength_eq_ok hmachine, widthOf_none hb]
          intro _ _ _ _ _ _ _ hm
          cases hm
      | stopped => exact .stopped

end Descriptor

end AvmSandbox
