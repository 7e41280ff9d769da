import AvmSandbox.Codec.MachineDecode
import AvmSandbox.Proofs.Codec.MachineLength
import Mathlib.Data.List.Forall2

/-! # Machine rows — reading with positions of 64 bits

    A row whose positions are counted in 64 bits is read like any other until a
    component ends too far behind.  No more than the bytes of the buffer can be
    behind when a component is read, so that what comes behind more bytes than
    there are does not matter.

    * `Counted` and `AgreesUnless`: a computation ends as another one or stops;
    * `RowAgrees` and `readRow_agrees`: rows that are read alike;
    * `CutsAllowed` and `rowAgrees_fitSlots`: rows up to where they fit. -/

namespace AvmSandbox

/-! ## Computations that may stop -/

/-- Whether a computation does not end with a length that does not fit. -/
def Counted {α : Type} (r : Result α) : Prop := r ≠ .error .lengthOverflow

/-- Whether a computation ends as another one does, with all lengths counted, or ends with one
    that does not fit where it may. -/
def AgreesUnless {α : Type} (stops : Prop) (r s : Result α) : Prop :=
  r = s ∧ Counted r ∨ stops ∧ r = .error .lengthOverflow

section computations

variable {α β : Type} {stops : Prop} {r s : Result α}

theorem counted_ok (a : α) : Counted (.ok a) := by
  simp [Counted]

/-- A sequence counts all lengths when its steps do. -/
theorem counted_bind {f : α → Result β} (hr : Counted r) (hf : ∀ a, Counted (f a)) :
    Counted (r >>= f) := by
  cases r with
  | ok a => exact hf a
  | error e => exact fun h => hr (congrArg Except.error (Except.error.inj h))

theorem AgreesUnless.ok (a : α) : AgreesUnless stops (.ok a) (.ok a) :=
  .inl ⟨rfl, counted_ok a⟩

/-- A refusal for any other reason is an agreement. -/
theorem AgreesUnless.error {e : Fault} (he : e ≠ .lengthOverflow) :
    AgreesUnless stops (.error e : Result α) (.error e) :=
  .inl ⟨rfl, by simpa [Counted] using he⟩

/-- What may stop for one reason may stop for a weaker one. -/
theorem AgreesUnless.mono {stops' : Prop} (hstops : stops → stops')
    (h : AgreesUnless stops r s) : AgreesUnless stops' r s :=
  h.imp id fun h => ⟨hstops h.1, h.2⟩

/-- What is done with a result does not matter. -/
theorem AgreesUnless.map (h : AgreesUnless stops r s) (f : α → β) :
    AgreesUnless stops (do return f (← r)) (do return f (← s)) := by
  rcases h with ⟨rfl, hr⟩ | ⟨hstops, rfl⟩
  · cases r with
    | ok a => exact .ok (f a)
    | error e => exact .error fun he => hr (by rw [he])
  · exact .inr ⟨hstops, rfl⟩

end computations

section rows

variable {stops : Prop} {bound pos left : Nat} {slots slots' : List Slot}
  {refuse : Malformation → Fault}

/-! ## Rows that are read alike -/

/-- Whether components are read alike from buffers within the bound. -/
inductive Slot.Agrees (stops : Prop) (bound : Nat) : Slot → Slot → Prop where
  | bit : Slot.Agrees stops bound .bit .bit
  | fixed {n : Nat} {read read' : Bytes → Result Value}
      (h : ∀ raw, raw.length ≤ bound → AgreesUnless stops (read raw) (read' raw)) :
      Slot.Agrees stops bound (.fixed n read) (.fixed n read')
  | varying {read read' : Bytes → Result Value}
      (h : ∀ raw, raw.length ≤ bound → AgreesUnless stops (read raw) (read' raw)) :
      Slot.Agrees stops bound (.varying read) (.varying read')

/-- Whether rows are read alike from a buffer within the bound when `pos` bytes of it are behind
    and `left` bits of a byte are to be read yet. -/
inductive RowAgrees (stops : Prop) (bound : Nat) : Nat → Nat → List Slot → List Slot → Prop where
  | nil {pos left : Nat} : RowAgrees stops bound pos left [] []
  | cons {pos left : Nat} {slot slot' : Slot} {slots slots' : List Slot}
      (h : slot.Agrees stops bound slot')
      (hrest : RowAgrees stops bound (pos + slot.headSize left) (slot.bitsLeft left) slots slots') :
      RowAgrees stops bound pos left (slot :: slots) (slot' :: slots')
  | refused {pos left : Nat} {cause : Fault} {slots slots' : List Slot}
      (hcause : cause ≠ .lengthOverflow) :
      RowAgrees stops bound pos left (.refused cause :: slots) (.refused cause :: slots')
  | stopped {pos left : Nat} {slots slots' : List Slot} (h : stops) :
      RowAgrees stops bound pos left (.refused .lengthOverflow :: slots) slots'
  /-- More bytes would be behind than there are. -/
  | beyond {pos left : Nat} {slots slots' : List Slot} (h : bound < pos) :
      RowAgrees stops bound pos left slots slots'

/-- Whether cells are read alike from buffers within the bound. -/
inductive Cell.Agrees (stops : Prop) (bound : Nat) : Cell → Cell → Prop where
  | known (v : Value) : Cell.Agrees stops bound (.known v) (.known v)
  | later {start : Nat} {read read' : Bytes → Result Value}
      (h : ∀ raw, raw.length ≤ bound → AgreesUnless stops (read raw) (read' raw)) :
      Cell.Agrees stops bound (.later start read) (.later start read')

/-- Whether the heads of rows are read alike. -/
inductive HeadsAgree (stops : Prop) (bound : Nat) :
    Result (Nat × Bytes × List Cell) → Result (Nat × Bytes × List Cell) → Prop where
  | ok {pos : Nat} {rest : Bytes} {cells cells' : List Cell} (hrest : rest.length ≤ bound)
      (hcells : List.Forall₂ (Cell.Agrees stops bound) cells cells') :
      HeadsAgree stops bound (.ok (pos, rest, cells)) (.ok (pos, rest, cells'))
  | error {e : Fault} (he : e ≠ .lengthOverflow) : HeadsAgree stops bound (.error e) (.error e)
  | stopped {s : Result (Nat × Bytes × List Cell)} (h : stops) :
      HeadsAgree stops bound (.error .lengthOverflow) s

/-- **HEADS ARE READ ALIKE**, or the machine stops where it may, by induction on the components that
    are alike. -/
theorem readHeads_agrees (hrefuse : ∀ cause, refuse cause ≠ .lengthOverflow)
    (h : RowAgrees stops bound pos left slots slots') {rest : Bytes} {unread : Unread}
    {done done' : List Cell} (hleft : unread.count = left) (hpos : pos + rest.length ≤ bound)
    (hdone : List.Forall₂ (Cell.Agrees stops bound) done done') :
    HeadsAgree stops bound (readHeads refuse pos rest unread done slots)
      (readHeads refuse pos rest unread done' slots') := by
  induction h generalizing rest unread done done' with
  | nil =>
      rw [readHeads, readHeads]
      exact .ok (by omega) (List.rel_reverse hdone)
  | @cons pos left slot slot' slots slots' h hrest ih =>
      obtain ⟨count, byte⟩ := unread
      obtain rfl : count = left := hleft
      cases h with
      | bit =>
          cases count with
          | succ count => exact ih rfl hpos (.cons (.known _) hdone)
          | zero =>
              cases rest with
              | nil => exact .error (hrefuse _)
              | cons first rest =>
                  rw [List.length_cons] at hpos
                  exact ih rfl (by simp [Slot.headSize]; omega) (.cons (.known _) hdone)
      | @fixed n read read' hread =>
          rw [readHeads, readHeads]
          split
          · exact .error (hrefuse _)
          · next hlen =>
              have htake : (rest.take n).length ≤ bound := by
                rw [List.length_take]
                omega
              -- the component is read the same, or stops the machine
              rcases hread _ htake with ⟨heq, hne⟩ | ⟨hstops, hstop⟩
              · rw [← heq]
                cases hraw : read (rest.take n) with
                | error e => exact .error fun he => hne (by rw [hraw, he])
                | ok v =>
                    refine ih rfl ?_ (.cons (.known v) hdone)
                    rw [List.length_take] at hlen
                    rw [Slot.headSize, List.length_drop]
                    omega
              · rw [hstop]
                exact .stopped hstops
      | varying hread =>
          cases rest with
          | nil => exact .error (hrefuse _)
          | cons hi rest =>
              cases rest with
              | nil => exact .error (hrefuse _)
              | cons lo rest =>
                  rw [List.length_cons, List.length_cons] at hpos
                  exact ih rfl (by rw [Slot.headSize]; omega) (.cons (.later hread) hdone)
  | refused hcause => exact .error hcause
  | stopped hstops => exact .stopped hstops
  | beyond hlt => omega

/-- Tails start where the heads say, and these are alike. -/
theorem nextStart?_agrees {cells cells' : List Cell}
    (h : List.Forall₂ (Cell.Agrees stops bound) cells cells') :
    nextStart? cells = nextStart? cells' := by
  induction h with
  | nil => rfl
  | cons hcell _ ih =>
      cases hcell with
      | known v => exact ih
      | later _ => rfl

/-- Tails are read alike, from the last one on. -/
theorem readTails_agrees (hrefuse : ∀ cause, refuse cause ≠ .lengthOverflow)
    {cells cells' : List Cell} (h : List.Forall₂ (Cell.Agrees stops bound) cells cells')
    {rest : Bytes} {done : List Value} (hrest : rest.length ≤ bound) :
    AgreesUnless stops (readTails refuse pos rest done cells)
      (readTails refuse pos rest done cells') := by
  induction h generalizing pos rest done with
  | nil => exact .ok _
  | cons hcell hcells ih =>
      cases hcell with
      | known v => exact ih hrest
      | @later start read read' hread =>
          rw [readTails, readTails, ← nextStart?_agrees hcells]
          split
          · exact .error (hrefuse _)
          split
          -- the last tail takes all that is left
          · rcases hread rest hrest with ⟨heq, hne⟩ | ⟨hstops, hstop⟩
            · rw [← heq]
              cases hraw : read rest with
              | error e => exact .error fun he => hne (by rw [hraw, he])
              | ok v => exact ih hrest
            · rw [hstop]
              exact .inr ⟨hstops, rfl⟩
          · next finish _ =>
              split
              · exact .error (hrefuse _)
              dsimp only
              split
              · exact .error (hrefuse _)
              -- any other ends where the next one begins
              have htake : (rest.take (finish - start)).length ≤ bound := by
                rw [List.length_take]
                omega
              rcases hread _ htake with ⟨heq, hne⟩ | ⟨hstops, hstop⟩
              · rw [← heq]
                cases hraw : read (rest.take (finish - start)) with
                | error e => exact .error fun he => hne (by rw [hraw, he])
                | ok v =>
                    refine ih ?_
                    rw [List.length_drop]
                    omega
              · rw [hstop]
                exact .inr ⟨hstops, rfl⟩

/-- **ROWS THAT AGREE ARE READ ALIKE.** -/
theorem readRow_agrees (hrefuse : ∀ cause, refuse cause ≠ .lengthOverflow) {bytes : Bytes}
    (hbytes : bytes.length ≤ bound) (h : RowAgrees stops bound 0 0 slots slots') :
    AgreesUnless stops (readRow refuse bytes slots) (readRow refuse bytes slots') := by
  have hheads := readHeads_agrees hrefuse h (rfl : (⟨0, 0⟩ : Unread).count = 0)
    (by rwa [Nat.zero_add]) (List.Forall₂.nil (R := Cell.Agrees stops bound))
  rw [readRow, readRow]
  generalize readHeads refuse 0 bytes ⟨0, 0⟩ [] slots = r at hheads
  generalize readHeads refuse 0 bytes ⟨0, 0⟩ [] slots' = r' at hheads
  cases hheads with
  | ok hrest hcells =>
      dsimp only
      rw [← nextStart?_agrees hcells]
      split
      · exact .error (hrefuse _)
      · exact readTails_agrees hrefuse hcells hrest
  | error he => exact .error he
  | stopped hstops => exact .inr ⟨hstops, rfl⟩

/-! ## Rows up to where they fit -/

/-- A bit takes up at most the byte that it begins. -/
theorem Slot.headSize_bit_le (left : Nat) : Slot.bit.headSize left ≤ 1 := by
  rw [headSize]
  split <;> omega

/-- Whether a row may be cut at each component whose head ends beyond 64 bits, up to one that is
    refused anyway. -/
def CutsAllowed (stops : Prop) (bound pos left : Nat) : List Slot → Prop
  | [] => True
  | .refused _ :: _ => Limits.length ≤ pos → stops ∨ bound < pos
  | slot :: slots =>
      (Limits.length ≤ pos + slot.headSize left → stops ∨ bound < pos) ∧
        CutsAllowed stops bound (pos + slot.headSize left) (slot.bitsLeft left) slots

/-- A row may be cut where more bytes are behind than there are. -/
theorem cutsAllowed_of_beyond (h : bound < pos) : CutsAllowed stops bound pos left slots := by
  induction slots generalizing pos left with
  | nil => trivial
  | cons slot slots ih =>
      have hnext : bound < pos + slot.headSize left := Nat.lt_of_lt_of_le h (Nat.le_add_right _ _)
      cases slot with
      | refused cause => exact fun _ => .inr h
      | _ => exact ⟨fun _ => .inr h, ih hnext⟩

/-- What has been kept stands in front of what is kept yet. -/
theorem fitSlots_done (done : List Slot) (pos left : Nat) (slots : List Slot) :
    fitSlots done pos left slots = done.reverse ++ fitSlots [] pos left slots := by
  induction slots generalizing done pos left with
  | nil => simp [fitSlots]
  | cons slot slots ih =>
      rw [fitSlots, fitSlots]
      cases addLengths pos (slot.headSize left) with
      | ok next =>
          dsimp only
          rw [ih, ih [slot]]
          simp
      | error cause => simp

/-- A row that fits so far is read up to the first component that does not. -/
theorem fitSlots_cons (pos left : Nat) (slot : Slot) (slots : List Slot) :
    (pos + slot.headSize left < Limits.length ∧ fitSlots [] pos left (slot :: slots) =
      slot :: fitSlots [] (pos + slot.headSize left) (slot.bitsLeft left) slots) ∨
    (Limits.length ≤ pos + slot.headSize left ∧
      fitSlots [] pos left (slot :: slots) = [.refused .lengthOverflow]) := by
  rw [fitSlots]
  cases hsum : addLengths pos (slot.headSize left) with
  | ok next =>
      obtain ⟨hlt, rfl⟩ := addLengths_eq_ok_iff.mp hsum
      exact .inl ⟨hlt, fitSlots_done [slot] _ _ slots⟩
  | error cause =>
      obtain ⟨hle, rfl⟩ := addLengths_eq_error_iff.mp hsum
      exact .inr ⟨hle, rfl⟩

/-- A component whose head ends in time is kept. -/
theorem fitSlots_of_lt {slot : Slot} (h : pos + slot.headSize left < Limits.length) :
    fitSlots [] pos left (slot :: slots) =
      slot :: fitSlots [] (pos + slot.headSize left) (slot.bitsLeft left) slots := by
  obtain ⟨-, hfit⟩ | ⟨hle, -⟩ := fitSlots_cons pos left slot slots
  · exact hfit
  · omega

/-- Where a row may be cut, it may be read as another one or not at all. -/
theorem rowAgrees_cut (h : stops ∨ bound < pos) :
    RowAgrees stops bound pos left [.refused .lengthOverflow] slots' :=
  h.elim .stopped .beyond

/-- **A ROW UP TO WHERE IT FITS IS READ LIKE THE ROW.** -/
theorem rowAgrees_fitSlots (h : RowAgrees stops bound pos left slots slots')
    (hcuts : CutsAllowed stops bound pos left slots) :
    RowAgrees stops bound pos left (fitSlots [] pos left slots) slots' := by
  induction h with
  | nil => exact .nil
  | @cons pos left slot slot' slots slots' h hrest ih =>
      have hcuts : (Limits.length ≤ pos + slot.headSize left → stops ∨ bound < pos) ∧
          CutsAllowed stops bound (pos + slot.headSize left) (slot.bitsLeft left) slots := by
        cases h <;> exact hcuts
      obtain ⟨-, hfit⟩ | ⟨hle, hfit⟩ := fitSlots_cons pos left slot slots
      · rw [hfit]
        exact .cons h (ih hcuts.2)
      · rw [hfit]
        exact rowAgrees_cut (hcuts.1 hle)
  | @refused pos left cause slots slots' hcause =>
      obtain ⟨-, hfit⟩ | ⟨hle, hfit⟩ := fitSlots_cons pos left (.refused cause) slots
      · rw [hfit]
        exact .refused hcause
      · rw [hfit]
        exact rowAgrees_cut (hcuts hle)
  | @stopped pos left slots slots' hstops =>
      obtain ⟨-, hfit⟩ | ⟨hle, hfit⟩ := fitSlots_cons pos left (.refused .lengthOverflow) slots
      · rw [hfit]
        exact .stopped hstops
      · rw [hfit]
        exact .stopped hstops
  | beyond hlt => exact .beyond hlt

end rows

end AvmSandbox
