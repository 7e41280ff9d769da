import AvmSandbox.Descriptor.Length
import AvmSandbox.Proofs.Codec.RowLayout

/-! # Row bytes — the buffers that hold a row of given components

    The reader goes through a row boolean by boolean, with the current byte in
    hand, and is free to ignore bits.  `HeadsAt` follows it: it says which bytes
    are heads of given components when some bits of the current byte are still
    unread.  A buffer is a row of components (`IsRow`) when such heads are
    followed by the tails.

    * `isRow_of_assemble`: what is written is a row;
    * `headsAt_admitted`: the buffers that are rows of some components are those
      the layout of the row admits;
    * `rowLength_of_headsAt`: a row of static components has the length its
      widths add up to. -/

namespace AvmSandbox

/-- What a component has in the tail of its row. -/
def Part.tail : Part → Bytes
  | .varying bytes => bytes
  | _ => []

/-- The tails of a row. -/
def tailBytes (parts : List Part) : Bytes := parts.flatMap Part.tail

@[simp] theorem tailBytes_cons (p : Part) (parts : List Part) :
    tailBytes (p :: parts) = p.tail ++ tailBytes parts := by
  simp [tailBytes]

/-- A run of booleans has no tail. -/
@[simp] theorem tailBytes_bits (bits : List Bool) (parts : List Part) :
    tailBytes (bits.map .bit ++ parts) = tailBytes parts := by
  induction bits with
  | nil => rfl
  | cons b bits ih => exact ih

/-- Whether bytes are the heads of components, when some bits are unread and the next tail
    starts at `offset`. -/
def HeadsAt (unread : Unread) (offset : Nat) : List Part → Bytes → Prop
  | [], bytes => bytes = []
  | .bit b :: parts, bytes =>
      match unread.count with
      | left + 1 => topBit unread.byte = b ∧ HeadsAt ⟨left, unread.byte <<< 1⟩ offset parts bytes
      | 0 => ∃ byte rest, bytes = byte :: rest ∧ topBit byte = b ∧
          HeadsAt ⟨7, byte <<< 1⟩ offset parts rest
  | .fixed raw :: parts, bytes => ∃ rest, bytes = raw ++ rest ∧ HeadsAt ⟨0, 0⟩ offset parts rest
  | .varying raw :: parts, bytes =>
      ∃ hi lo rest, bytes = hi :: lo :: rest ∧ Bytes.toNat [hi, lo] = offset ∧
        HeadsAt ⟨0, 0⟩ (offset + raw.length) parts rest

/-- Whether a buffer is a row of components, up to the bits the reader ignores. -/
def IsRow (parts : List Part) (bytes : Bytes) : Prop :=
  ∃ front, HeadsAt ⟨0, 0⟩ front.length parts front ∧ bytes = front ++ tailBytes parts

/-! ## Runs of booleans -/

/-- Unread bits are dropped where the next component is no boolean. -/
theorem headsAt_reset {parts : List Part} (h : ∀ b, parts.head? ≠ some (.bit b))
    (unread : Unread) (offset : Nat) (bytes : Bytes) :
    HeadsAt unread offset parts bytes ↔ HeadsAt ⟨0, 0⟩ offset parts bytes := by
  cases parts with
  | nil => exact Iff.rfl
  | cons p parts =>
      cases p with
      | bit b => exact absurd rfl (h b)
      | fixed raw => exact Iff.rfl
      | varying raw => exact Iff.rfl

/-- Without unread bits the byte in hand does not matter. -/
theorem headsAt_spent (spent : UInt8) (offset : Nat) (parts : List Part) (bytes : Bytes) :
    HeadsAt ⟨0, spent⟩ offset parts bytes ↔ HeadsAt ⟨0, 0⟩ offset parts bytes := by
  cases parts with
  | nil => exact Iff.rfl
  | cons p parts => cases p <;> exact Iff.rfl

/-- Booleans for which there are enough unread bits, up to the end of the byte or of the run. -/
private theorem headsAt_byte {bits : List Bool} {parts : List Part} {unread : Unread}
    (hroom : bits.length ≤ unread.count)
    (hend : bits.length = unread.count ∨ ∀ b, parts.head? ≠ some (.bit b))
    (offset : Nat) (bytes : Bytes) :
    HeadsAt unread offset (bits.map .bit ++ parts) bytes ↔
      Shows bits unread.byte ∧ HeadsAt ⟨0, 0⟩ offset parts bytes := by
  induction bits generalizing unread with
  | nil =>
      rw [and_iff_right (shows_nil _)]
      show HeadsAt unread offset parts bytes ↔ _
      rcases hend with hcount | hother
      · obtain ⟨count, byte⟩ := unread
        simp only [List.length_nil] at hcount
        subst hcount
        exact headsAt_spent byte offset parts bytes
      · exact headsAt_reset hother unread offset bytes
  | cons b bits ih =>
      obtain ⟨count, byte⟩ := unread
      cases count with
      | zero => simp at hroom
      | succ left =>
          have hstep := @ih ⟨left, byte <<< 1⟩ (by simpa using hroom) (by simpa using hend)
          show topBit byte = b ∧ HeadsAt ⟨left, byte <<< 1⟩ offset (bits.map .bit ++ parts) bytes
            ↔ _
          rw [hstep, shows_cons, and_assoc]

/-- A fresh byte holds the first eight booleans of a run, or all of them. -/
private theorem headsAt_fresh {b : Bool} {bits : List Bool} {parts : List Part}
    (hother : ∀ b, parts.head? ≠ some (.bit b)) (offset : Nat) (bytes : Bytes) :
    HeadsAt ⟨0, 0⟩ offset ((b :: bits).map .bit ++ parts) bytes ↔
      ∃ byte rest, bytes = byte :: rest ∧ (runOctet (b :: bits) 0).Admits byte ∧
        HeadsAt ⟨0, 0⟩ offset (((b :: bits).drop 8).map .bit ++ parts) rest := by
  have hsplit : bits = bits.take 7 ++ (b :: bits).drop 8 := by
    rw [List.drop_succ_cons, List.take_append_drop]
  have hend : (bits.take 7).length = 7 ∨
      ∀ b', (((b :: bits).drop 8).map Part.bit ++ parts).head? ≠ some (.bit b') := by
    by_cases hlen : 7 ≤ bits.length
    · exact Or.inl (by simp [hlen])
    · rw [List.drop_succ_cons, List.drop_eq_nil_of_le (by omega)]
      exact Or.inr hother
  have hstep : ∀ (byte : UInt8) (rest : Bytes),
      (topBit byte = b ∧ HeadsAt ⟨7, byte <<< 1⟩ offset (bits.map .bit ++ parts) rest) ↔
        (runOctet (b :: bits) 0).Admits byte ∧
          HeadsAt ⟨0, 0⟩ offset (((b :: bits).drop 8).map .bit ++ parts) rest := by
    intro byte rest
    have hroom : (bits.take 7).length ≤ (⟨7, byte <<< 1⟩ : Unread).count :=
      List.length_take_le 7 bits
    have h := headsAt_byte hroom hend offset rest
    rw [← List.append_assoc, ← List.map_append, ← hsplit] at h
    rw [h, ← and_assoc, runOctet_admits_iff, List.take_succ_cons, shows_cons]
  show (∃ byte rest, bytes = byte :: rest ∧ topBit byte = b ∧
    HeadsAt ⟨7, byte <<< 1⟩ offset (bits.map .bit ++ parts) rest) ↔ _
  simp only [hstep]

/-- A run of booleans is read from the bytes its layout admits. -/
theorem headsAt_run {parts : List Part} (hother : ∀ b, parts.head? ≠ some (.bit b))
    (offset : Nat) (bits : List Bool) (bytes : Bytes) :
    HeadsAt ⟨0, 0⟩ offset (bits.map .bit ++ parts) bytes ↔
      ∃ run rest, bytes = run ++ rest ∧ Admitted (runOctets bits) run ∧
        HeadsAt ⟨0, 0⟩ offset parts rest := by
  -- eight booleans at a time, as the layout is made
  induction hn : bits.length using Nat.strongRecOn generalizing bits bytes with
  | ind n ih =>
      cases bits with
      | nil =>
          constructor
          · intro h
            exact ⟨[], bytes, rfl, .nil, h⟩
          · rintro ⟨run, rest, rfl, hrun, h⟩
            cases hrun
            exact h
      | cons b bits =>
          have hshorter : ((b :: bits).drop 8).length < n := by
            rw [← hn, List.length_drop, List.length_cons]
            omega
          rw [headsAt_fresh hother, runOctets_cons]
          constructor
          · rintro ⟨byte, rest, rfl, hbyte, h⟩
            obtain ⟨run, rest', rfl, hrun, h⟩ := (ih _ hshorter _ rest rfl).mp h
            exact ⟨byte :: run, rest', rfl, .cons hbyte hrun, h⟩
          · rintro ⟨run, rest, rfl, hrun, h⟩
            cases hrun with
            | cons hbyte hrun =>
                refine ⟨_, _, rfl, hbyte, ?_⟩
                exact (ih _ hshorter _ _ rfl).mpr ⟨_, rest, rfl, hrun, h⟩

/-! ## Rows and their layout -/

private theorem exists_run (cs : List Component) :
    ∃ (bits : List Bool) (rest : List Component), cs = bits.map .bit ++ rest ∧ ∀ c ∈ rest.head?, c.isBit = false := by
  induction cs with
  | nil => exact ⟨[], [], rfl, by simp⟩
  | cons c cs ih =>
      cases c with
      | bit b =>
          obtain ⟨bits, rest, rfl, hrest⟩ := ih
          exact ⟨b :: bits, rest, rfl, hrest⟩
      | fixed os => exact ⟨[], _, rfl, by simp [Component.isBit]⟩
      | varying os => exact ⟨[], _, rfl, by simp [Component.isBit]⟩

/-- Induction over a row by its longest runs of booleans. -/
theorem Component.runInduction {motive : List Component → Prop} (nil : motive [])
    (fixed : ∀ os cs, motive cs → motive (.fixed os :: cs))
    (varying : ∀ os cs, motive cs → motive (.varying os :: cs))
    (run : ∀ bits cs, bits ≠ [] → (∀ c ∈ cs.head?, c.isBit = false) → motive cs →
      motive (bits.map .bit ++ cs)) :
    ∀ cs, motive cs := by
  intro cs
  induction hn : cs.length using Nat.strongRecOn generalizing cs with
  | ind n ih =>
      cases cs with
      | nil => exact nil
      | cons c cs =>
          have hlt : cs.length < n := by
            rw [← hn]
            exact Nat.lt_succ_self _
          cases c with
          | fixed os => exact fixed os cs (ih _ hlt cs rfl)
          | varying os => exact varying os cs (ih _ hlt cs rfl)
          | bit b =>
              -- a boolean takes the rest of its run along
              obtain ⟨bits, rest, rfl, hrest⟩ := exists_run cs
              have hle : rest.length < n := by
                rw [List.length_append] at hlt
                omega
              exact run (b :: bits) rest (by simp) hrest (ih _ hle rest rfl)

/-- Whether a buffer piece is one a reader takes for the component. -/
def Component.Admits : Component → Part → Prop
  | bit b, .bit b' => b = b'
  | fixed os, .fixed bytes => Admitted os bytes
  | varying os, .varying bytes => Admitted os bytes
  | _, _ => False

private theorem admits_bits {bits : List Bool} {cs : List Component} {parts : List Part}
    (h : List.Forall₂ Component.Admits (bits.map .bit ++ cs) parts) :
    ∃ rest, parts = bits.map .bit ++ rest ∧ List.Forall₂ Component.Admits cs rest := by
  induction bits generalizing parts with
  | nil => exact ⟨parts, rfl, h⟩
  | cons b bits ih =>
      cases h with
      | @cons _ p _ _ hp h =>
          obtain ⟨rest, rfl, hrest⟩ := ih h
          cases p with
          | bit b' => exact ⟨rest, by rw [show b = b' from hp]; rfl, hrest⟩
          | fixed _ | varying _ => exact hp.elim

private theorem head?_of_admits {cs : List Component} {parts : List Part}
    (h : List.Forall₂ Component.Admits cs parts) (hcs : ∀ c ∈ cs.head?, c.isBit = false) (b : Bool) :
    parts.head? ≠ some (.bit b) := by
  intro hhead
  cases h with
  | nil => cases hhead
  | @cons c p _ _ hp _ =>
      have hc := hcs c rfl
      have hpart : p = .bit b := Option.some.inj hhead
      subst hpart
      cases c with
      | bit b' => cases hc
      | fixed _ | varying _ => exact hp.elim

/-- Reading back the digits gives the number modulo the range of its width. -/
theorem Bytes.toNat_ofNat (width n : Nat) : toNat (ofNat width n) = n % 256 ^ width := by
  induction width generalizing n with
  | zero => simp [ofNat, toNat, Nat.mod_one]
  | succ w ih =>
      rw [ofNat, toNat_append_singleton, ih, Nat.pow_succ', Nat.mod_mul]
      simp only [UInt8.toNat_ofNat']
      omega

/-- Two bytes that read as a number are its digits. -/
theorem eq_ofNat_two {hi lo : UInt8} {n : Nat} (h : Bytes.toNat [hi, lo] = n) :
    n ≤ Limits.twoByte ∧ [hi, lo] = Bytes.ofNat 2 n := by
  have hhi := hi.toNat_lt
  have hlo := lo.toNat_lt
  have hn : n = hi.toNat * 256 + lo.toNat := by
    rw [← h]
    simp [Bytes.toNat]
  have hfit : n ≤ Limits.twoByte := by
    rw [Limits.twoByte]
    omega
  have hhigh : UInt8.ofNat (n / 256) = hi := by
    rw [show n / 256 = hi.toNat by omega, UInt8.ofNat_toNat]
  have hlow : UInt8.ofNat n = lo := by
    refine UInt8.toNat_inj.mp ?_
    rw [UInt8.toNat_ofNat']
    omega
  refine ⟨hfit, ?_⟩
  simp only [Bytes.ofNat, List.nil_append, List.cons_append]
  rw [hhigh, hlow]

/-- Two digits read back. -/
theorem toNat_two {n : Nat} (h : n ≤ Limits.twoByte) : Bytes.toNat (Bytes.ofNat 2 n) = n := by
  rw [Bytes.toNat_ofNat]
  exact Nat.mod_eq_of_lt (by rw [Limits.twoByte] at h; omega)

/-- The heads a reader sees are among those the layout admits. -/
theorem headsAt_admitted {cs : List Component} {parts : List Part} {offset : Nat} {front : Bytes}
    (hparts : List.Forall₂ Component.Admits cs parts)
    (h : HeadsAt ⟨0, 0⟩ offset parts front) :
    OffsetsFit offset (stretches cs) ∧ Admitted (headOctets offset (stretches cs)) front := by
  induction cs using Component.runInduction generalizing parts offset front with
  | nil =>
      cases hparts
      have hfront : front = [] := h
      subst hfront
      exact ⟨trivial, .nil⟩
  | fixed os cs ih =>
      cases hparts with
      | @cons _ p _ _ hp hparts =>
          cases p with
          | fixed raw =>
              obtain ⟨rest, rfl, h⟩ := h
              obtain ⟨hfit, hrest⟩ := ih hparts h
              exact ⟨hfit, Admitted.append hp hrest⟩
          | bit _ | varying _ => exact hp.elim
  | varying os cs ih =>
      cases hparts with
      | @cons _ p _ _ hp hparts =>
          cases p with
          | varying raw =>
              obtain ⟨hi, lo, rest, rfl, hstart, h⟩ := h
              obtain ⟨hle, hdigits⟩ := eq_ofNat_two hstart
              -- the piece is as long as its layout, so the next offset is the same
              rw [Admitted.length_eq hp] at h
              obtain ⟨hfit, hrest⟩ := ih hparts h
              exact ⟨⟨hle, hfit⟩, Admitted.append (admitted_solids.mpr hdigits) hrest⟩
          | bit _ | fixed _ => exact hp.elim
  | run bits cs hbits hcs ih =>
      obtain ⟨rest, rfl, hrest⟩ := admits_bits hparts
      obtain ⟨run, front, rfl, hrun, h⟩ :=
        (headsAt_run (head?_of_admits hrest hcs) offset bits front).mp h
      obtain ⟨hfit, hfront⟩ := ih hrest h
      rw [stretches_bits hbits, joinRun_stretches hcs]
      exact ⟨hfit, Admitted.append hrun hfront⟩

private theorem head?_of_components {cs : List Component} (h : ∀ c ∈ cs.head?, c.isBit = false)
    (b : Bool) : (cs.map Component.part).head? ≠ some (.bit b) := by
  cases cs with
  | nil => simp
  | cons c cs =>
      have hc := h c rfl
      cases c with
      | bit b' => cases hc
      | fixed _ | varying _ => simp [Component.part]

/-- The heads of the layout are heads for the reader. -/
theorem headsAt_written {cs : List Component} {offset : Nat}
    (hfit : OffsetsFit offset (stretches cs)) :
    HeadsAt ⟨0, 0⟩ offset (cs.map Component.part) (written (headOctets offset (stretches cs))) := by
  induction cs using Component.runInduction generalizing offset with
  | nil => rfl
  | fixed os cs ih =>
      refine ⟨written (headOctets offset (stretches cs)), ?_, ih hfit⟩
      simp [stretches, headOctets, Stretch.head, Stretch.tail]
  | varying os cs ih =>
      obtain ⟨hle, hfit⟩ := hfit
      have hstart := toNat_two hle
      have hrest := ih hfit
      simp only [Bytes.ofNat, List.nil_append, List.cons_append] at hstart
      refine ⟨_, _, written (headOctets (offset + os.length) (stretches cs)), ?_, hstart, ?_⟩
      · simp [stretches, headOctets, Stretch.head, Stretch.tail, Bytes.ofNat]
      · rwa [length_written]
  | run bits cs hbits hcs ih =>
      rw [stretches_bits hbits, joinRun_stretches hcs] at hfit ⊢
      rw [List.map_append, List.map_map]
      refine (headsAt_run (head?_of_components hcs) offset bits _).mpr ?_
      refine ⟨written (runOctets bits), written (headOctets offset (stretches cs)), ?_,
        admitted_written _, ih hfit⟩
      simp [headOctets, Stretch.head, Stretch.tail]

/-- Components all of whose bits count. -/
def Part.component : Part → Component
  | .bit b => .bit b
  | .fixed bytes => .fixed (solids bytes)
  | .varying bytes => .varying (solids bytes)

theorem map_part_component (parts : List Part) :
    (parts.map Part.component).map Component.part = parts := by
  rw [List.map_map]
  conv_rhs => rw [← List.map_id parts]
  refine List.map_congr_left ?_
  intro p _
  cases p <;> simp [Part.component, Component.part]

/-- The tails of a row do not depend on how its booleans are grouped. -/
theorem tailOctets_stretches (cs : List Component) :
    written (tailOctets (stretches cs)) = tailBytes (cs.map Component.part) := by
  induction cs using Component.runInduction with
  | nil => rfl
  | fixed os cs ih =>
      simpa [stretches, Stretch.tail, Component.part, Part.tail] using ih
  | varying os cs ih =>
      simpa [stretches, Stretch.tail, Component.part, Part.tail] using ih
  | run bits cs hbits hcs ih =>
      have hbare : (bits.map Component.bit).map Component.part = bits.map Part.bit := by
        rw [List.map_map]
        rfl
      rw [stretches_bits hbits, joinRun_stretches hcs, List.map_append, hbare, tailBytes_bits,
        ← ih]
      rfl

/-- What is written for components is a row of them. -/
theorem isRow_of_assemble {parts : List Part} {bytes : Bytes} (h : assemble parts = .ok bytes) :
    IsRow parts bytes := by
  rw [← map_part_component parts] at h ⊢
  obtain ⟨hfit, rfl⟩ := assemble_eq_ok_iff.mp h
  refine ⟨written (headOctets (headLength (stretches (parts.map Part.component)))
    (stretches (parts.map Part.component))), ?_, ?_⟩
  · rw [length_written, length_headOctets]
    exact headsAt_written hfit
  · rw [rowOctets, rowOf, written_append, tailOctets_stretches]

/-- The tails of admitted components are admitted for the tails of the layout. -/
theorem tailOctets_admitted {cs : List Component} {parts : List Part}
    (h : List.Forall₂ Component.Admits cs parts) :
    Admitted (tailOctets (stretches cs)) (tailBytes parts) := by
  induction cs using Component.runInduction generalizing parts with
  | nil => cases h; exact .nil
  | fixed os cs ih =>
      cases h with
      | @cons _ p _ _ hp h =>
          cases p with
          | fixed raw =>
              rw [tailBytes_cons]
              exact ih h
          | bit _ | varying _ => exact hp.elim
  | varying os cs ih =>
      cases h with
      | @cons _ p _ _ hp h =>
          cases p with
          | varying raw =>
              rw [tailBytes_cons]
              exact Admitted.append hp (ih h)
          | bit _ | fixed _ => exact hp.elim
  | run bits cs hbits hcs ih =>
      obtain ⟨rest, rfl, hrest⟩ := admits_bits h
      rw [stretches_bits hbits, joinRun_stretches hcs, tailBytes_bits]
      exact ih hrest

/-- **ROWS ARE WHAT THE LAYOUT ADMITS**: a row of pieces that are admitted for components is
    admitted for the layout of their row, and all offsets of that layout fit. -/
theorem admitted_of_isRow {cs : List Component} {parts : List Part} {bytes : Bytes}
    (hparts : List.Forall₂ Component.Admits cs parts) (h : IsRow parts bytes) :
    OffsetsFit (headLength (stretches cs)) (stretches cs) ∧ Admitted (rowOctets cs) bytes := by
  obtain ⟨front, hfront, rfl⟩ := h
  obtain ⟨hfit, hheads⟩ := headsAt_admitted hparts hfront
  have hlen : front.length = headLength (stretches cs) := by
    rw [hheads.length_eq, length_headOctets]
  rw [hlen] at hfit hheads
  exact ⟨hfit, hheads.append (tailOctets_admitted hparts)⟩

/-! ## Static rows -/

/-- What the component contributes to the length of its row. -/
def Part.width : Part → Width
  | .bit _ => .bit
  | .fixed bytes => .bytes bytes.length
  | .varying _ => .free

/-- The heads of static components have the length their widths add up to. -/
theorem rowLength_of_headsAt {parts : List Part} {unread : Unread} {offset : Nat} {front : Bytes}
    (hcount : unread.count ≤ 7) (hstatic : ∀ p ∈ parts, p.width ≠ .free)
    (h : HeadsAt unread offset parts front) :
    rowLength ((8 - unread.count) % 8) (parts.map Part.width) = some front.length := by
  -- the run that is open has as many booleans behind it as its byte has bits read
  induction parts generalizing unread front with
  | nil =>
      have hfront : front = [] := h
      subst hfront
      rfl
  | cons p parts ih =>
      have hrest : ∀ p' ∈ parts, p'.width ≠ .free := fun p' hp' =>
        hstatic p' (List.mem_cons_of_mem p hp')
      cases p with
      | bit b =>
          obtain ⟨count, byte⟩ := unread
          cases count with
          | zero =>
              obtain ⟨byte', rest, rfl, -, h⟩ := h
              have hrow := @ih ⟨7, byte' <<< 1⟩ rest (by simp) hrest h
              simp only [List.map_cons, Part.width, rowLength]
              simp only at hrow
              simp [hrow, Nat.add_comm]
          | succ left =>
              obtain ⟨-, h⟩ := h
              simp only at hcount
              have hrow := @ih ⟨left, byte <<< 1⟩ front (by simp only; omega) hrest h
              simp only at hrow
              have hrun : ((8 - (left + 1)) % 8 + 1) % 8 = (8 - left) % 8 := by omega
              have hne : (8 - (left + 1)) % 8 ≠ 0 := by omega
              simp only [List.map_cons, Part.width, rowLength]
              rw [hrun, hrow, if_neg hne]
              simp
      | fixed raw =>
          obtain ⟨rest, rfl, h⟩ := h
          have hrow := @ih ⟨0, 0⟩ rest (by simp) hrest h
          simp only [List.map_cons, Part.width, rowLength]
          simp only at hrow
          simp [hrow]
      | varying raw => exact absurd rfl (hstatic _ (List.mem_cons_self ..))

/-- A row of static components has the length their widths add up to. -/
theorem rowLength_of_isRow {parts : List Part} {bytes : Bytes}
    (hstatic : ∀ p ∈ parts, p.width ≠ .free) (h : IsRow parts bytes) :
    rowLength 0 (parts.map Part.width) = some bytes.length := by
  obtain ⟨front, hfront, rfl⟩ := h
  have hnone : tailBytes parts = [] := by
    refine List.flatMap_eq_nil_iff.mpr ?_
    intro p hp
    cases p with
    | varying raw => exact absurd rfl (hstatic _ hp)
    | bit _ | fixed _ => rfl
  rw [hnone, List.append_nil]
  exact rowLength_of_headsAt (Nat.zero_le 7) hstatic hfront

end AvmSandbox
