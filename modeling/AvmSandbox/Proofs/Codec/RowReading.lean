import AvmSandbox.Proofs.Codec.RowBytes

/-! # Row reading — what the reader makes of a buffer

    The reader first goes over the heads, where it reads what is static and
    notes where each tail starts.  Then it cuts the tails out: each has to start
    where the one before it ends, and the last one takes all that is left.

    * `RowReads` says which values the slots make of given components;
    * `readRow_eq_ok_iff`: from a row of known components the reader takes
      exactly those values;
    * `isRow_of_readRow`: whatever it reads is a row of some components. -/

namespace AvmSandbox

/-! ## Slots and components -/

/-- Whether a component has the form a slot asks for.  A slot that is refused asks for none. -/
inductive Slot.Fits : Slot → Part → Prop where
  | bit (b : Bool) : Fits .bit (.bit b)
  | fixed (raw : Bytes) (read : Bytes → Result Value) : Fits (.fixed raw.length read) (.fixed raw)
  | varying (raw : Bytes) (read : Bytes → Result Value) : Fits (.varying read) (.varying raw)
  | refused (cause : Fault) (p : Part) : Fits (.refused cause) p

/-- Whether a slot reads a component as a value. -/
def Slot.Reads : Slot → Part → Value → Prop
  | bit, .bit b, v => v = .bool b
  | fixed _ read, .fixed bytes, v => read bytes = .ok v
  | varying read, .varying bytes, v => read bytes = .ok v
  | _, _, _ => False

/-- Whether slots read the components of a row as some values, one by one. -/
inductive RowReads : List Slot → List Part → List Value → Prop where
  | nil : RowReads [] [] []
  | cons {s : Slot} {p : Part} {v : Value} {slots : List Slot} {parts : List Part}
      {vs : List Value} : s.Reads p v → RowReads slots parts vs →
        RowReads (s :: slots) (p :: parts) (v :: vs)

theorem rowReads_nil_iff {vs : List Value} : RowReads [] [] vs ↔ vs = [] := by
  constructor
  · intro h
    cases h
    rfl
  · rintro rfl
    exact .nil

theorem rowReads_cons_iff {s : Slot} {p : Part} {slots : List Slot} {parts : List Part}
    {vs : List Value} :
    RowReads (s :: slots) (p :: parts) vs ↔
      ∃ v more, s.Reads p v ∧ RowReads slots parts more ∧ vs = v :: more := by
  constructor
  · intro h
    cases h with
    | cons hv hmore => exact ⟨_, _, hv, hmore, rfl⟩
  · rintro ⟨v, more, hv, hmore, rfl⟩
    exact .cons hv hmore

/-! ## Single steps of the reader -/

section steps

variable {refuse : Malformation → Fault} {read : Bytes → Result Value}

/-- The head of a static component is cut off and read. -/
theorem readHeads_fixed {length pos : Nat} {bytes : Bytes} {unread : Unread} {done : List Cell}
    {slots : List Slot} {out : Nat × Bytes × List Cell} :
    readHeads refuse pos bytes unread done (.fixed length read :: slots) = .ok out ↔
      ∃ raw more v, bytes = raw ++ more ∧ raw.length = length ∧ read raw = .ok v ∧
        readHeads refuse (pos + length) more ⟨0, 0⟩ (.known v :: done) slots = .ok out := by
  rw [readHeads]
  constructor
  · intro h
    split at h
    · cases h
    · next hroom =>
        have hlen : (bytes.take length).length = length := by
          have hle := List.length_take_le length bytes
          omega
        cases hread : read (bytes.take length) with
        | error e =>
            rw [hread] at h
            cases h
        | ok v =>
            rw [hread] at h
            exact ⟨_, _, v, (List.take_append_drop length bytes).symm, hlen, hread, h⟩
  · rintro ⟨raw, more, v, rfl, rfl, hread, h⟩
    simp only [List.take_left, List.drop_left, hread, h, Nat.lt_irrefl, if_false]

/-- The head of a dynamic component is an offset of two bytes. -/
theorem readHeads_varying {pos : Nat} {bytes : Bytes} {unread : Unread} {done : List Cell}
    {slots : List Slot} {out : Nat × Bytes × List Cell} :
    readHeads refuse pos bytes unread done (.varying read :: slots) = .ok out ↔
      ∃ hi lo more, bytes = hi :: lo :: more ∧
        readHeads refuse (pos + 2) more ⟨0, 0⟩ (.later (Bytes.toNat [hi, lo]) read :: done) slots
          = .ok out := by
  constructor
  · intro h
    rcases bytes with _ | ⟨hi, _ | ⟨lo, more⟩⟩
    · cases h
    · cases h
    · exact ⟨hi, lo, more, rfl, h⟩
  · rintro ⟨hi, lo, more, rfl, h⟩
    exact h

/-- The last tail takes all that is left. -/
theorem readTails_last {start pos : Nat} {rest : Bytes} {done vs : List Value}
    {cells : List Cell} (hnext : nextStart? cells = none) :
    readTails refuse pos rest done (.later start read :: cells) = .ok vs ↔
      start = pos ∧ ∃ v, read rest = .ok v ∧
        readTails refuse pos rest (v :: done) cells = .ok vs := by
  rw [readTails]
  by_cases hstart : start = pos
  · rw [if_neg (not_not.mpr hstart), and_iff_right hstart]
    simp only [hnext]
    cases hread : read rest with
    | error e => simp
    | ok v => simp
  · rw [if_pos hstart]
    simp [hstart]

/-- Any other tail ends where the next one starts. -/
theorem readTails_before {start finish pos : Nat} {rest : Bytes} {done vs : List Value}
    {cells : List Cell} (hnext : nextStart? cells = some finish) :
    readTails refuse pos rest done (.later start read :: cells) = .ok vs ↔
      start = pos ∧ ∃ raw more v, rest = raw ++ more ∧ finish = pos + raw.length ∧
        read raw = .ok v ∧ readTails refuse finish more (v :: done) cells = .ok vs := by
  rw [readTails]
  by_cases hstart : start = pos
  · subst hstart
    simp only [ne_eq, not_true_eq_false, if_false, true_and, hnext]
    constructor
    · intro h
      split at h
      · cases h
      · split at h
        · cases h
        · next hroom =>
            have hlen : (rest.take (finish - start)).length = finish - start := by
              have hle := List.length_take_le (finish - start) rest
              omega
            cases hread : read (rest.take (finish - start)) with
            | error e =>
                rw [hread] at h
                cases h
            | ok v =>
                rw [hread] at h
                refine ⟨_, _, v, (List.take_append_drop (finish - start) rest).symm, ?_, hread, h⟩
                omega
    · rintro ⟨raw, more, v, rfl, rfl, hread, h⟩
      rw [if_neg (by omega), Nat.add_sub_cancel_left, List.take_left, if_neg (Nat.lt_irrefl _),
        List.drop_left, hread]
      exact h
  · rw [if_pos hstart]
    simp [hstart]

end steps

/-! ## Rows of known components -/

/-- The cells that the heads of a row leave behind when the next tail starts at `offset`. -/
inductive RowCells : Nat → List Slot → List Part → List Cell → Prop where
  | nil {offset : Nat} : RowCells offset [] [] []
  | bit {offset : Nat} {slots : List Slot} {parts : List Part} {cells : List Cell} (b : Bool) :
      RowCells offset slots parts cells →
        RowCells offset (.bit :: slots) (.bit b :: parts) (.known (.bool b) :: cells)
  | fixed {offset : Nat} {slots : List Slot} {parts : List Part} {cells : List Cell}
      {raw : Bytes} {read : Bytes → Result Value} {v : Value} (length : Nat) : read raw = .ok v →
      RowCells offset slots parts cells →
        RowCells offset (.fixed length read :: slots) (.fixed raw :: parts) (.known v :: cells)
  | varying {offset : Nat} {slots : List Slot} {parts : List Part} {cells : List Cell}
      {raw : Bytes} (read : Bytes → Result Value) :
      RowCells (offset + raw.length) slots parts cells →
        RowCells offset (.varying read :: slots) (.varying raw :: parts)
          (.later offset read :: cells)

/-- The cell of a boolean is the same whichever byte it came from. -/
private theorem exists_rowCells_bit {slots : List Slot} {parts : List Part} {offset : Nat}
    {b : Bool} {P : List Cell → Prop} :
    (∃ cells, RowCells offset (.bit :: slots) (.bit b :: parts) cells ∧ P cells) ↔
      ∃ cells, RowCells offset slots parts cells ∧ P (.known (.bool b) :: cells) := by
  constructor
  · rintro ⟨cells, hcells, h⟩
    cases hcells with
    | bit _ hcells => exact ⟨_, hcells, h⟩
  · rintro ⟨cells, hcells, h⟩
    exact ⟨_, hcells.bit b, h⟩

/-- Reading the heads of a row leaves the cells behind, unless a static component is refused. -/
theorem readHeads_eq_ok_iff {refuse : Malformation → Fault} {slots : List Slot}
    {parts : List Part} {unread : Unread} {offset pos : Nat} {front rest : Bytes}
    {done : List Cell} {out : Nat × Bytes × List Cell}
    (hfits : List.Forall₂ Slot.Fits slots parts) (h : HeadsAt unread offset parts front) :
    readHeads refuse pos (front ++ rest) unread done slots = .ok out ↔
      ∃ cells, RowCells offset slots parts cells ∧
        out = (pos + front.length, rest, done.reverse ++ cells) := by
  induction hfits generalizing unread offset pos front done with
  | nil =>
      have hfront : front = [] := h
      subst hfront
      constructor
      · intro hread
        exact ⟨[], .nil, by simpa [readHeads, eq_comm] using hread⟩
      · rintro ⟨cells, hcells, rfl⟩
        cases hcells
        simp [readHeads]
  | @cons s p slots parts hp hfits ih =>
      cases hp with
      | refused cause p =>
          constructor
          · intro hread
            cases hread
          · rintro ⟨cells, hcells, -⟩
            cases hcells
      | bit b =>
          simp only [exists_rowCells_bit]
          obtain ⟨count, byte⟩ := unread
          cases count with
          -- a byte of bits was begun, and its next bit is read
          | succ left =>
              obtain ⟨htop, h⟩ := h
              simp only at htop
              simp only [readHeads, htop, ih h, List.reverse_cons, List.append_assoc,
                List.singleton_append]
          -- the bit opens a new byte
          | zero =>
              obtain ⟨byte', front, rfl, htop, h⟩ := h
              have hpos : pos + 1 + front.length = pos + (byte' :: front).length := by
                rw [List.length_cons, Nat.add_right_comm, Nat.add_assoc]
              simp only [readHeads, List.cons_append, htop, ih h, hpos, List.reverse_cons,
                List.append_assoc, List.nil_append]
      | fixed raw read =>
          obtain ⟨front, rfl, h⟩ := h
          rw [readHeads_fixed, List.append_assoc, List.length_append, ← Nat.add_assoc]
          constructor
          · rintro ⟨raw', more, v, hsplit, hlen, hread, hmore⟩
            -- the reader takes as many bytes as the head has, so these are the same
            obtain ⟨rfl, rfl⟩ := List.append_inj hsplit hlen.symm
            obtain ⟨cells, hcells, rfl⟩ := (ih h).mp hmore
            exact ⟨_, hcells.fixed _ hread, by simp⟩
          · rintro ⟨cells, hcells, rfl⟩
            cases hcells with
            | fixed _ hread hcells =>
                exact ⟨raw, front ++ rest, _, rfl, rfl, hread,
                  (ih h).mpr ⟨_, hcells, by simp⟩⟩
      | varying raw read =>
          obtain ⟨hi, lo, front, rfl, hstart, h⟩ := h
          rw [readHeads_varying, List.length_cons, List.length_cons,
            show pos + (front.length + 1 + 1) = pos + 2 + front.length by omega]
          constructor
          · rintro ⟨hi', lo', more, hsplit, hmore⟩
            cases hsplit
            rw [hstart] at hmore
            obtain ⟨cells, hcells, rfl⟩ := (ih h).mp hmore
            exact ⟨_, hcells.varying read, by simp⟩
          · rintro ⟨cells, hcells, rfl⟩
            cases hcells with
            | varying _ hcells =>
                refine ⟨hi, lo, front ++ rest, rfl, ?_⟩
                rw [hstart]
                exact (ih h).mpr ⟨_, hcells, by simp⟩

namespace RowCells

variable {slots : List Slot} {parts : List Part} {cells : List Cell} {offset : Nat}

/-- Where no tail is left there are no bytes of one. -/
theorem tailBytes_eq_nil (h : RowCells offset slots parts cells)
    (hnone : nextStart? cells = none) : tailBytes parts = [] := by
  induction h with
  | nil => rfl
  | bit _ _ ih => exact ih hnone
  | fixed _ _ _ ih => exact ih hnone
  | varying _ _ _ => cases hnone

/-- The next tail is where it is expected. -/
theorem nextStart_eq {start : Nat} (h : RowCells offset slots parts cells)
    (hsome : nextStart? cells = some start) : start = offset := by
  induction h with
  | nil => cases hsome
  | bit _ _ ih => exact ih hsome
  | fixed _ _ _ ih => exact ih hsome
  | varying _ _ _ => exact (Option.some.inj hsome).symm

/-- A row that reads leaves cells behind. -/
theorem exists_of_rowReads {vs : List Value} (h : RowReads slots parts vs) (offset : Nat) :
    ∃ cells, RowCells offset slots parts cells := by
  induction h generalizing offset with
  | nil => exact ⟨[], .nil⟩
  | @cons s p v slots parts vs hv _ ih =>
      cases s with
      | refused cause => cases p <;> exact hv.elim
      | bit =>
          cases p with
          | bit b =>
              obtain ⟨cells, hcells⟩ := ih offset
              exact ⟨_, hcells.bit b⟩
          | fixed _ | varying _ => exact hv.elim
      | fixed length read =>
          cases p with
          | fixed raw =>
              obtain ⟨cells, hcells⟩ := ih offset
              exact ⟨_, hcells.fixed length hv⟩
          | bit _ | varying _ => exact hv.elim
      | varying read =>
          cases p with
          | varying raw =>
              obtain ⟨cells, hcells⟩ := ih (offset + raw.length)
              exact ⟨_, hcells.varying read⟩
          | bit _ | fixed _ => exact hv.elim

end RowCells

/-- The values of a row when what its first component reads as is known. -/
private theorem exists_rowReads_cons {s : Slot} {p : Part} {r : Result Value} {slots : List Slot}
    {parts : List Part} {done vs : List Value} (hs : ∀ w, s.Reads p w ↔ r = .ok w) :
    (∃ ws, RowReads (s :: slots) (p :: parts) ws ∧ vs = done.reverse ++ ws) ↔
      ∃ v, r = .ok v ∧ ∃ ws, RowReads slots parts ws ∧ vs = (v :: done).reverse ++ ws := by
  constructor
  · rintro ⟨_, hrow, rfl⟩
    obtain ⟨v, ws, hv, hws, rfl⟩ := rowReads_cons_iff.mp hrow
    exact ⟨v, (hs v).mp hv, ws, hws, by simp⟩
  · rintro ⟨v, hv, ws, hws, rfl⟩
    exact ⟨v :: ws, rowReads_cons_iff.mpr ⟨v, ws, (hs v).mpr hv, hws, rfl⟩, by simp⟩

/-- Reading the tails of a row takes up the values of its components. -/
theorem readTails_eq_ok_iff {refuse : Malformation → Fault} {slots : List Slot}
    {parts : List Part} {cells : List Cell} {offset pos : Nat} {rest : Bytes}
    {done vs : List Value} (h : RowCells offset slots parts cells)
    (hplace : nextStart? cells ≠ none → pos = offset ∧ rest = tailBytes parts) :
    readTails refuse pos rest done cells = .ok vs ↔
      ∃ ws, RowReads slots parts ws ∧ vs = done.reverse ++ ws := by
  induction h generalizing pos rest done with
  | nil =>
      constructor
      · intro hread
        exact ⟨[], .nil, by simpa [readTails, eq_comm] using hread⟩
      · rintro ⟨ws, hws, rfl⟩
        cases hws
        simp [readTails]
  | bit b _ ih =>
      rw [readTails, ih hplace, exists_rowReads_cons (r := .ok (.bool b))
        (fun w => by simp [Slot.Reads, eq_comm])]
      simp
  | fixed _ hv _ ih =>
      rw [readTails, ih hplace, exists_rowReads_cons (fun w => Iff.rfl), hv]
      simp
  | @varying offset slots parts cells raw read h ih =>
      obtain ⟨rfl, rfl⟩ := hplace (by simp [nextStart?])
      have htails : tailBytes (.varying raw :: parts) = raw ++ tailBytes parts := rfl
      rw [htails, exists_rowReads_cons (fun w => Iff.rfl)]
      cases hnext : nextStart? cells with
      | none =>
          -- the last tail takes all that is left
          rw [readTails_last hnext, h.tailBytes_eq_nil hnext, List.append_nil,
            and_iff_right rfl]
          exact exists_congr fun v => and_congr_right fun _ => ih fun hne => absurd hnext hne
      | some finish =>
          -- any other ends where the next one begins
          obtain rfl := h.nextStart_eq hnext
          rw [readTails_before hnext, and_iff_right rfl]
          constructor
          · rintro ⟨raw', more, v, hsplit, hlen, hread, hmore⟩
            obtain ⟨rfl, rfl⟩ := List.append_inj hsplit (Nat.add_left_cancel hlen)
            exact ⟨v, hread, (ih fun _ => ⟨rfl, rfl⟩).mp hmore⟩
          · rintro ⟨v, hread, hmore⟩
            exact ⟨raw, tailBytes parts, v, rfl, rfl, hread, (ih fun _ => ⟨rfl, rfl⟩).mpr hmore⟩

/-- **A ROW READS AS ITS COMPONENTS**: from a row of known components the reader takes the
    values that the slots make of them, and no others. -/
theorem readRow_eq_ok_iff {refuse : Malformation → Fault} {slots : List Slot}
    {parts : List Part} {bytes : Bytes} {vs : List Value}
    (hfits : List.Forall₂ Slot.Fits slots parts) (h : IsRow parts bytes) :
    readRow refuse bytes slots = .ok vs ↔ RowReads slots parts vs := by
  obtain ⟨front, hfront, rfl⟩ := h
  have hheads : ∀ out, readHeads refuse 0 (front ++ tailBytes parts) ⟨0, 0⟩ [] slots = .ok out ↔
      ∃ cells, RowCells front.length slots parts cells ∧
        out = (0 + front.length, tailBytes parts, [].reverse ++ cells) :=
    fun _ => readHeads_eq_ok_iff hfits hfront
  rw [readRow]
  cases hread : readHeads refuse 0 (front ++ tailBytes parts) ⟨0, 0⟩ [] slots with
  | error e =>
      constructor
      · intro hno
        cases hno
      · intro hrow
        obtain ⟨cells, hcells⟩ := RowCells.exists_of_rowReads hrow front.length
        have hok := (hheads _).mpr ⟨cells, hcells, rfl⟩
        rw [hread] at hok
        cases hok
  | ok out =>
      obtain ⟨cells, hcells, rfl⟩ := (hheads out).mp hread
      have hcheck : ((nextStart? cells).isNone && !(tailBytes parts).isEmpty) = false := by
        cases hnext : nextStart? cells with
        | none => simp [hcells.tailBytes_eq_nil hnext]
        | some start => rfl
      simp only [Nat.zero_add, List.reverse_nil, List.nil_append, hcheck]
      simp [readTails_eq_ok_iff hcells (fun _ => ⟨rfl, rfl⟩)]

/-! ## Unknown components -/

/-- What the reader has seen of the heads of a row whose components are not known. -/
inductive SeenHeads : Unread → List Slot → Bytes → List Cell → Prop where
  | nil {unread : Unread} : SeenHeads unread [] [] []
  | bit {left : Nat} {byte : UInt8} {slots : List Slot} {front : Bytes} {cells : List Cell} :
      SeenHeads ⟨left, byte <<< 1⟩ slots front cells →
        SeenHeads ⟨left + 1, byte⟩ (.bit :: slots) front (.known (.bool (topBit byte)) :: cells)
  | byte {spent byte : UInt8} {slots : List Slot} {front : Bytes} {cells : List Cell} :
      SeenHeads ⟨7, byte <<< 1⟩ slots front cells →
        SeenHeads ⟨0, spent⟩ (.bit :: slots) (byte :: front)
          (.known (.bool (topBit byte)) :: cells)
  | fixed {unread : Unread} {raw : Bytes} {read : Bytes → Result Value} {v : Value}
      {slots : List Slot} {front : Bytes} {cells : List Cell} : read raw = .ok v →
      SeenHeads ⟨0, 0⟩ slots front cells →
        SeenHeads unread (.fixed raw.length read :: slots) (raw ++ front) (.known v :: cells)
  | varying {unread : Unread} {hi lo : UInt8} {read : Bytes → Result Value}
      {slots : List Slot} {front : Bytes} {cells : List Cell} :
      SeenHeads ⟨0, 0⟩ slots front cells →
        SeenHeads unread (.varying read :: slots) (hi :: lo :: front)
          (.later (Bytes.toNat [hi, lo]) read :: cells)

/-- The reader cuts the heads off the front of a buffer. -/
theorem seenHeads_of_readHeads {refuse : Malformation → Fault} {slots : List Slot}
    {pos pos' : Nat} {bytes rest : Bytes} {unread : Unread} {done cells : List Cell}
    (h : readHeads refuse pos bytes unread done slots = .ok (pos', rest, cells)) :
    ∃ front more, SeenHeads unread slots front more ∧ bytes = front ++ rest ∧
      pos' = pos + front.length ∧ cells = done.reverse ++ more := by
  induction slots generalizing pos bytes unread done with
  | nil =>
      obtain ⟨rfl, rfl, rfl⟩ : pos = pos' ∧ bytes = rest ∧ done.reverse = cells := by
        simpa [readHeads] using h
      exact ⟨[], [], .nil, rfl, rfl, by simp⟩
  | cons s slots ih =>
      cases s with
      | refused cause => cases h
      | bit =>
          obtain ⟨count, byte⟩ := unread
          cases count with
          | succ left =>
              obtain ⟨front, more, hseen, rfl, rfl, rfl⟩ := ih h
              exact ⟨front, _, hseen.bit, rfl, rfl, by simp⟩
          | zero =>
              cases bytes with
              | nil => cases h
              | cons byte' bytes =>
                  obtain ⟨front, more, hseen, rfl, rfl, rfl⟩ := ih h
                  refine ⟨byte' :: front, _, hseen.byte, rfl, ?_, by simp⟩
                  rw [List.length_cons]
                  omega
      | fixed length read =>
          obtain ⟨raw, rest', v, rfl, rfl, hread, h⟩ := readHeads_fixed.mp h
          obtain ⟨front, more, hseen, rfl, rfl, rfl⟩ := ih h
          refine ⟨raw ++ front, _, hseen.fixed hread, ?_, ?_, by simp⟩
          · rw [List.append_assoc]
          · rw [List.length_append, Nat.add_assoc]
      | varying read =>
          obtain ⟨hi, lo, rest', rfl, h⟩ := readHeads_varying.mp h
          obtain ⟨front, more, hseen, rfl, rfl, rfl⟩ := ih h
          refine ⟨hi :: lo :: front, _, hseen.varying, rfl, ?_, by simp⟩
          rw [List.length_cons, List.length_cons]
          omega

/-- The tails that are read complete the heads to components.  As long as a tail is to come the
    next one starts at `pos`, and all of what is left is taken up by tails. -/
theorem headsAt_of_readTails {refuse : Malformation → Fault} {slots : List Slot}
    {unread : Unread} {front rest : Bytes} {cells : List Cell} {pos : Nat}
    {done vs : List Value} (h : SeenHeads unread slots front cells)
    (hread : readTails refuse pos rest done cells = .ok vs) :
    ∃ parts ws, List.Forall₂ Slot.Fits slots parts ∧ RowReads slots parts ws ∧
      vs = done.reverse ++ ws ∧
      tailBytes parts = (if (nextStart? cells).isNone then [] else rest) ∧
      ∀ offset, (nextStart? cells ≠ none → offset = pos) →
        HeadsAt unread offset parts front := by
  induction h generalizing pos rest done with
  | nil =>
      refine ⟨[], [], .nil, .nil, ?_, rfl, fun _ _ => rfl⟩
      simpa [readTails, eq_comm] using hread
  | bit _ ih =>
      obtain ⟨parts, ws, hfits, hws, rfl, htails, hheads⟩ := ih hread
      exact ⟨_, _, .cons (.bit _) hfits, .cons rfl hws, by simp, htails,
        fun offset hoffset => ⟨rfl, hheads offset hoffset⟩⟩
  | byte _ ih =>
      obtain ⟨parts, ws, hfits, hws, rfl, htails, hheads⟩ := ih hread
      exact ⟨_, _, .cons (.bit _) hfits, .cons rfl hws, by simp, htails,
        fun offset hoffset => ⟨_, _, rfl, rfl, hheads offset hoffset⟩⟩
  | @fixed _ raw read _ _ _ _ hv _ ih =>
      obtain ⟨parts, ws, hfits, hws, rfl, htails, hheads⟩ := ih hread
      exact ⟨_, _, .cons (.fixed raw read) hfits, .cons hv hws, by simp, htails,
        fun offset hoffset => ⟨_, rfl, hheads offset hoffset⟩⟩
  | @varying _ hi lo read slots front cells _ ih =>
      cases hnext : nextStart? cells with
      | none =>
          -- the last tail is all that is left, whatever its length
          obtain ⟨hstart, v, hraw, hread⟩ := (readTails_last hnext).mp hread
          obtain ⟨parts, ws, hfits, hws, rfl, htails, hheads⟩ := ih hread
          rw [hnext] at htails hheads
          have hnil : tailBytes parts = [] := htails
          refine ⟨_, _, .cons (.varying rest read) hfits, .cons hraw hws, by simp, ?_, ?_⟩
          · simp [nextStart?, Part.tail, hnil]
          · intro offset hoffset
            have hpos : offset = pos := hoffset (by simp [nextStart?])
            exact ⟨hi, lo, _, rfl, by rw [hstart, hpos], hheads _ fun hne => absurd rfl hne⟩
      | some finish =>
          -- the piece ends at the next offset, which is therefore the right one
          obtain ⟨hstart, raw, more, v, rfl, rfl, hraw, hread⟩ := (readTails_before hnext).mp hread
          obtain ⟨parts, ws, hfits, hws, rfl, htails, hheads⟩ := ih hread
          rw [hnext] at htails
          have htails : tailBytes parts = more := htails
          refine ⟨_, _, .cons (.varying raw read) hfits, .cons hraw hws, by simp, ?_, ?_⟩
          · simp [nextStart?, Part.tail, htails]
          · intro offset hoffset
            have hpos : offset = pos := hoffset (by simp [nextStart?])
            subst hpos
            exact ⟨hi, lo, _, rfl, hstart, hheads _ fun _ => rfl⟩

/-- **THE READER READS NOTHING BUT ROWS**: the components it takes apart have the forms it
    asks for, read as the values it returns, and make up the whole buffer. -/
theorem isRow_of_readRow {refuse : Malformation → Fault} {slots : List Slot} {bytes : Bytes}
    {vs : List Value} (h : readRow refuse bytes slots = .ok vs) :
    ∃ parts, IsRow parts bytes ∧ List.Forall₂ Slot.Fits slots parts ∧
      RowReads slots parts vs := by
  rw [readRow] at h
  cases hread : readHeads refuse 0 bytes ⟨0, 0⟩ [] slots with
  | error e =>
      rw [hread] at h
      cases h
  | ok out =>
      obtain ⟨pos, rest, cells⟩ := out
      rw [hread] at h
      simp only at h
      split at h
      · cases h
      · next hcheck =>
          obtain ⟨front, more, hseen, rfl, hpos, hcells⟩ := seenHeads_of_readHeads hread
          rw [List.reverse_nil, List.nil_append] at hcells
          rw [Nat.zero_add] at hpos
          subst hcells hpos
          obtain ⟨parts, ws, hfits, hws, hvs, htails, hheads⟩ := headsAt_of_readTails hseen h
          rw [List.reverse_nil, List.nil_append] at hvs
          subst hvs
          refine ⟨parts, ⟨front, hheads _ fun _ => rfl, ?_⟩, hfits, hws⟩
          rw [htails]
          cases hnext : nextStart? cells with
          | none =>
              have hrest : rest = [] := by simpa [hnext] using hcheck
              simp [hrest]
          | some start => rfl

end AvmSandbox
