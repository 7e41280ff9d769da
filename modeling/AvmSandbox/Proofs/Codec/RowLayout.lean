import AvmSandbox.Proofs.Codec.Octet

/-! # Row layout — what a row of components looks like

    The layout of a row is given here from its longest runs of booleans, as the
    format describes it: the heads of all stretches, then the tails of the
    varying ones.  A run takes as many bytes as its booleans fill, a fixed
    component is its own head, and the head of a varying one is a two-byte
    offset: the length of all heads and of the tails before its own.

    The writer instead packs booleans as they come and closes a byte when eight
    are in or another component follows.

    * `rowOctets` is the layout;
    * `assemble_eq_ok_iff`: the writer writes exactly that layout, and fails only
      when an offset does not fit two bytes;
    * `rowShape` is what the format asks of a row, place by place. -/

namespace AvmSandbox

/-- One laid-out component of a row. -/
inductive Component where
  /-- A boolean, to be packed with its neighbours. -/
  | bit (value : Bool)
  /-- A static component. -/
  | fixed (octets : List Octet)
  /-- A dynamic component. -/
  | varying (octets : List Octet)

namespace Component

/-- What is written for the component. -/
def part : Component → Part
  | bit b => .bit b
  | fixed os => .fixed (written os)
  | varying os => .varying (written os)

/-- Whether the component is packed with its neighbours. -/
def isBit : Component → Bool
  | bit _ => true
  | _ => false

end Component

/-! ## Stretches -/

/-- A piece of a row that stands for itself. -/
inductive Stretch where
  /-- Neighbouring booleans, as many as there are. -/
  | run (bits : List Bool)
  | fixed (octets : List Octet)
  | varying (octets : List Octet)

/-- Puts booleans in front of a row, into the run it begins with if there is one. -/
def joinRun (bits : List Bool) : List Stretch → List Stretch
  | .run more :: rest => .run (bits ++ more) :: rest
  | rest => .run bits :: rest

/-- The stretches of a row. -/
def stretches : List Component → List Stretch
  | [] => []
  | .bit b :: rest => joinRun [b] (stretches rest)
  | .fixed os :: rest => .fixed os :: stretches rest
  | .varying os :: rest => .varying os :: stretches rest

namespace Stretch

/-- How many bytes of the head the stretch takes. -/
def headLength : Stretch → Nat
  | run bits => (bits.length + 7) / 8
  | fixed os => os.length
  | varying _ => 2

/-- The head of the stretch when its tail starts at `offset`. -/
def head (offset : Nat) : Stretch → List Octet
  | run bits => runOctets bits
  | fixed os => os
  | varying _ => solids (Bytes.ofNat 2 offset)

/-- The tail of the stretch. -/
def tail : Stretch → List Octet
  | varying os => os
  | _ => []

@[simp] theorem length_head (offset : Nat) (s : Stretch) :
    (s.head offset).length = s.headLength := by
  cases s <;> simp [head, headLength]

end Stretch

/-- How many bytes all heads take. -/
def headLength (ss : List Stretch) : Nat := (ss.map Stretch.headLength).sum

/-- All heads, when the next tail starts at `offset`. -/
def headOctets (offset : Nat) : List Stretch → List Octet
  | [] => []
  | s :: rest => s.head offset ++ headOctets (offset + s.tail.length) rest

/-- All tails. -/
def tailOctets (ss : List Stretch) : List Octet := ss.flatMap Stretch.tail

/-- Heads, then tails; the first tail starts where the heads end. -/
def rowOf (ss : List Stretch) : List Octet := headOctets (headLength ss) ss ++ tailOctets ss

/-- The layout of a row. -/
def rowOctets (cs : List Component) : List Octet := rowOf (stretches cs)

/-- Whether every offset fits its two bytes, when the next tail starts at `offset`. -/
def OffsetsFit (offset : Nat) : List Stretch → Prop
  | [] => True
  | .varying os :: rest => offset ≤ Limits.twoByte ∧ OffsetsFit (offset + os.length) rest
  | _ :: rest => OffsetsFit offset rest

/-! ## Lengths and places -/

@[simp] theorem headLength_cons (s : Stretch) (ss : List Stretch) :
    headLength (s :: ss) = s.headLength + headLength ss := by
  simp [headLength]

@[simp] theorem tailOctets_cons (s : Stretch) (ss : List Stretch) :
    tailOctets (s :: ss) = s.tail ++ tailOctets ss := by
  simp [tailOctets]

@[simp] theorem length_headOctets (offset : Nat) (ss : List Stretch) :
    (headOctets offset ss).length = headLength ss := by
  induction ss generalizing offset with
  | nil => rfl
  | cons s ss ih => simp [headOctets, ih]

/-- A row is as long as its heads and its tails. -/
theorem length_rowOf (ss : List Stretch) :
    (rowOf ss).length = headLength ss + (tailOctets ss).length := by
  simp [rowOf]

/-- The heads of a later part point as far on as the tails of the earlier part reach. -/
theorem headOctets_append (offset : Nat) (xs ys : List Stretch) :
    headOctets offset (xs ++ ys)
      = headOctets offset xs ++ headOctets (offset + (tailOctets xs).length) ys := by
  induction xs generalizing offset with
  | nil => simp [headOctets, tailOctets]
  | cons x xs ih => simp [headOctets, ih, Nat.add_assoc]

/-- Where a stretch stands: its head behind the heads and its tail behind the tails of those
    before it. -/
theorem rowOf_split (xs ys : List Stretch) (s : Stretch) :
    ∃ back,
      rowOf (xs ++ s :: ys)
        = headOctets (headLength (xs ++ s :: ys)) xs
          ++ (s.head (headLength (xs ++ s :: ys) + (tailOctets xs).length) ++ back)
          ++ (tailOctets xs ++ (s.tail ++ tailOctets ys)) ∧
      headLength xs + (s.headLength + back.length) = headLength (xs ++ s :: ys) := by
  refine ⟨headOctets (headLength (xs ++ s :: ys) + (tailOctets xs).length + s.tail.length) ys,
    ?_, ?_⟩
  · rw [rowOf, headOctets_append]
    simp [headOctets, tailOctets]
  · simp [headLength]

/-- Offsets fit as soon as the whole row does. -/
theorem offsetsFit_of_le {ss : List Stretch} {offset : Nat}
    (h : offset + (tailOctets ss).length ≤ Limits.twoByte) : OffsetsFit offset ss := by
  induction ss generalizing offset with
  | nil => trivial
  | cons s ss ih =>
      rw [tailOctets_cons, List.length_append] at h
      cases s with
      | varying os =>
          simp only [Stretch.tail] at h
          exact ⟨by omega, ih (by omega)⟩
      | run _ | fixed _ =>
          simp only [Stretch.tail, List.length_nil, Nat.zero_add] at h
          exact ih h

/-! ## Runs -/

/-- Booleans before another component form a run of their own. -/
theorem joinRun_stretches {cs : List Component} (h : ∀ c ∈ cs.head?, c.isBit = false)
    (bits : List Bool) : joinRun bits (stretches cs) = .run bits :: stretches cs := by
  cases cs with
  | nil => rfl
  | cons c cs =>
      cases c with
      | bit b => exact absurd (h (.bit b) rfl) (by simp [Component.isBit])
      | fixed os => rfl
      | varying os => rfl

/-- Bits join a run as one row of bits. -/
theorem joinRun_joinRun (bits more : List Bool) (ss : List Stretch) :
    joinRun bits (joinRun more ss) = joinRun (bits ++ more) ss := by
  cases ss with
  | nil => rfl
  | cons s ss => cases s <;> simp [joinRun]

/-- The booleans a row begins with are in its first stretch. -/
theorem stretches_bits {bits : List Bool} (hbits : bits ≠ []) (cs : List Component) :
    stretches (bits.map .bit ++ cs) = joinRun bits (stretches cs) := by
  induction bits with
  | nil => exact absurd rfl hbits
  | cons b bits ih =>
      cases bits with
      | nil => rfl
      | cons b' bits =>
          rw [List.map_cons, List.cons_append, stretches, ih (by simp), joinRun_joinRun]
          rfl

/-! ## The format, place by place -/

/-- The components of a stretch. -/
def Stretch.components : Stretch → List Component
  | run bits => bits.map .bit
  | fixed os => [.fixed os]
  | varying os => [.varying os]

/-- Whether the stretch is a run of booleans. -/
def Stretch.isRun : Stretch → Bool
  | run _ => true
  | _ => false

/-- What the format asks of the octets of a row. -/
structure RowShape (cs : List Component) (octets : List Octet) : Prop where
  /-- The stretches fall into the components in order. -/
  components : (stretches cs).flatMap Stretch.components = cs
  /-- Runs are as long as they can be. -/
  maximal : (stretches cs).IsChain fun a b => a.isRun = false ∨ b.isRun = false
  /-- The boolean at place `k` of a run is bit `k % 8` from the top of byte `k / 8` of the run. -/
  run : ∀ {xs ys bits}, stretches cs = xs ++ .run bits :: ys → ∀ {k b}, bits[k]? = some b →
    ∃ o, octets[headLength xs + k / 8]? = some o ∧ bitAt o.byte (k % 8) = b ∧
      bitAt o.padding (k % 8) = false
  /-- A fixed component stands in the head. -/
  fixed : ∀ {xs ys os}, stretches cs = xs ++ .fixed os :: ys →
    (octets.drop (headLength xs)).take os.length = os
  /-- The head of a varying component is the length of all heads and of the tails before its own,
      which is where its tail stands. -/
  varying : ∀ {xs ys os}, stretches cs = xs ++ .varying os :: ys →
    (octets.drop (headLength xs)).take 2
        = solids (Bytes.ofNat 2 (headLength (stretches cs) + (tailOctets xs).length)) ∧
      (octets.drop (headLength (stretches cs) + (tailOctets xs).length)).take os.length = os
  /-- The tails take up what the heads leave. -/
  covered : octets.length = headLength (stretches cs) + (tailOctets (stretches cs)).length

/-- Joining bits to a run adds them in front of the components. -/
private theorem components_joinRun (bits : List Bool) (ss : List Stretch) :
    (joinRun bits ss).flatMap Stretch.components
      = bits.map .bit ++ ss.flatMap Stretch.components := by
  cases ss with
  | nil => simp [joinRun, Stretch.components]
  | cons s ss => cases s <;> simp [joinRun, Stretch.components]

/-- Bits that join a run make no second run beside it. -/
private theorem maximal_joinRun {bits : List Bool} {ss : List Stretch}
    (h : ss.IsChain fun a b => a.isRun = false ∨ b.isRun = false) :
    (joinRun bits ss).IsChain fun a b => a.isRun = false ∨ b.isRun = false := by
  cases ss with
  | nil => exact .singleton _
  | cons s ss =>
      cases s with
      | run more =>
          cases h with
          | singleton => exact .singleton _
          | cons_cons hnext h => exact .cons_cons hnext h
      | fixed os => exact .cons_cons (Or.inr rfl) h
      | varying os => exact .cons_cons (Or.inr rfl) h

private theorem maximal_cons {s : Stretch} {ss : List Stretch} (hs : s.isRun = false)
    (h : ss.IsChain fun a b => a.isRun = false ∨ b.isRun = false) :
    (s :: ss).IsChain fun a b => a.isRun = false ∨ b.isRun = false := by
  cases ss with
  | nil => exact .singleton _
  | cons s' ss => exact .cons_cons (Or.inl hs) h

/-- **THE LAYOUT HAS THE SHAPE OF THE FORMAT.** -/
theorem rowShape (cs : List Component) : RowShape cs (rowOctets cs) := by
  refine ⟨?_, ?_, ?_, ?_, ?_, length_rowOf _⟩
  · induction cs with
    | nil => rfl
    | cons c cs ih =>
        cases c with
        | bit b => rw [stretches, components_joinRun, ih]; rfl
        | fixed os | varying os => rw [stretches, List.flatMap_cons, ih]; rfl
  · induction cs with
    | nil => exact .nil
    | cons c cs ih =>
        cases c with
        | bit b => exact maximal_joinRun ih
        | fixed os | varying os => exact maximal_cons rfl ih
  · -- the octet of a run is found by counting from where the run begins
    intro xs ys bits hss k b hb
    obtain ⟨back, hrow, -⟩ := rowOf_split xs ys (.run bits)
    have hlt : k < bits.length := (List.getElem?_eq_some_iff.mp hb).1
    have hmod : k % 8 < 8 := Nat.mod_lt k (by omega)
    have hplace : 8 * (k / 8) + k % 8 = k := Nat.div_add_mod k 8
    refine ⟨runOctet bits (k / 8), ?_, ?_, ?_⟩
    · have hin : k / 8 < (bits.length + 7) / 8 := by omega
      rw [rowOctets, hss, hrow, List.append_assoc,
        List.getElem?_append_right (by rw [length_headOctets]; omega), length_headOctets,
        Nat.add_sub_cancel_left, List.append_assoc, Stretch.head,
        List.getElem?_append_left (by rw [length_runOctets]; exact hin), runOctets,
        List.getElem?_map, List.getElem?_range hin, Option.map_some]
    · show bitAt (byteOf fun i => bits.getD (8 * (k / 8) + i) false) (k % 8) = b
      rw [bitAt_byteOf _ hmod, hplace, List.getD_eq_getElem?_getD, hb, Option.getD_some]
    · show bitAt (byteOf fun i => decide (bits.length ≤ 8 * (k / 8) + i)) (k % 8) = false
      rw [bitAt_byteOf _ hmod, hplace]
      simpa using hlt
  · intro xs ys os hss
    obtain ⟨back, hrow, -⟩ := rowOf_split xs ys (.fixed os)
    rw [rowOctets, hss, hrow, List.append_assoc, List.drop_left' (length_headOctets _ xs),
      List.append_assoc]
    exact List.take_left
  · -- what stands before the tail is all heads and the tails of earlier components
    intro xs ys os hss
    obtain ⟨back, hrow, hlen⟩ := rowOf_split xs ys (.varying os)
    rw [rowOctets, hss, hrow]
    constructor
    · rw [List.append_assoc, List.drop_left' (length_headOctets _ xs), List.append_assoc]
      exact List.take_left' (by simp [Stretch.head])
    · rw [← List.append_assoc, List.drop_left' (by simp; omega)]
      exact List.take_left

/-- A row is not shorter than its components. -/
theorem length_le_rowOctets {cs : List Component} {os : List Octet}
    (h : .fixed os ∈ cs ∨ .varying os ∈ cs) : os.length ≤ (rowOctets cs).length := by
  have hshape := rowShape cs
  have htake : ∀ n, ((rowOctets cs).drop n).take os.length = os →
      os.length ≤ (rowOctets cs).length := by
    intro n hn
    have hlen := congrArg List.length hn
    rw [List.length_take, List.length_drop] at hlen
    omega
  rw [← hshape.components, List.mem_flatMap, List.mem_flatMap] at h
  rcases h with ⟨s, hs, hos⟩ | ⟨s, hs, hos⟩
  · obtain ⟨xs, ys, hss⟩ := List.append_of_mem hs
    cases s with
    | fixed os' =>
        cases List.mem_singleton.mp hos
        exact htake _ (hshape.fixed hss)
    | run bits => simp [Stretch.components] at hos
    | varying os' => simp [Stretch.components] at hos
  · obtain ⟨xs, ys, hss⟩ := List.append_of_mem hs
    cases s with
    | varying os' =>
        cases List.mem_singleton.mp hos
        exact htake _ (hshape.varying hss).2
    | run bits => simp [Stretch.components] at hos
    | fixed os' => simp [Stretch.components] at hos

/-! ## The writer -/

/-- The heads that are written for a stretch. -/
def Stretch.heads : Stretch → List Head
  | run bits => (written (runOctets bits)).map fun byte => .inline [byte]
  | fixed os => [.inline (written os)]
  | varying os => [.pointer (written os)]

/-- Eight booleans close a byte, whatever follows. -/
theorem heads_joinRun_eight {bits : List Bool} (h : bits.length = 8) (ss : List Stretch) :
    (joinRun bits ss).flatMap Stretch.heads
      = .inline [packBits bits] :: ss.flatMap Stretch.heads := by
  -- the layout of the run begins with the byte, and goes on with the rest of the run
  have hrun : ∀ more, Stretch.heads (.run (bits ++ more))
      = .inline [packBits bits] :: Stretch.heads (.run more) := by
    intro more
    cases bits with
    | nil => exact absurd h (by simp)
    | cons b bits =>
        have htake : ((b :: bits) ++ more).take 8 = b :: bits := by
          rw [← h, List.take_left]
        have hdrop : ((b :: bits) ++ more).drop 8 = more := by
          rw [← h, List.drop_left]
        rw [Stretch.heads, List.cons_append, runOctets_cons]
        rw [← List.cons_append, hdrop]
        simp only [written, List.map_cons]
        rw [runOctet_byte, htake]
        rfl
  have hlone : Stretch.heads (.run bits) = [.inline [packBits bits]] := by
    have h0 := hrun []
    rwa [List.append_nil] at h0
  cases ss with
  | nil => simp [joinRun, hlone]
  | cons s ss =>
      cases s with
      | run more => simp [joinRun, hrun]
      | fixed os | varying os => simp [joinRun, hlone]

/-- A byte that is not full yet is closed when the row goes on with something else. -/
theorem flushBits_eq {pending : List Bool} (h : pending.length ≤ 7) (done : List Head) :
    (flushBits pending done).reverse
      = done.reverse ++ (if pending = [] then [] else Stretch.heads (.run pending.reverse)) := by
  cases pending with
  | nil => simp [flushBits]
  | cons b bits =>
      have hne : (b :: bits).reverse ≠ [] := by simp
      obtain ⟨c, cs, hcs⟩ := List.exists_cons_of_ne_nil hne
      have hlen : (c :: cs).length ≤ 7 := by rw [← hcs, List.length_reverse]; exact h
      have hdrop : (c :: cs).drop 8 = [] := List.drop_eq_nil_of_le (by omega)
      have htake : (c :: cs).take 8 = c :: cs := List.take_of_length_le (by omega)
      rw [if_neg (by simp), hcs, Stretch.heads, runOctets_cons, hdrop]
      simp only [written, runOctets_nil, List.map_cons, List.map_nil]
      rw [runOctet_byte, htake, ← hcs]
      simp [flushBits]

/-- The writer's heads are those of the stretches; `pending` are the booleans it has taken in
    but not written yet. -/
theorem headsFrom_eq (cs : List Component) (done : List Head) {pending : List Bool}
    (h : pending.length ≤ 7) :
    headsFrom done pending (cs.map Component.part)
      = done.reverse
        ++ (stretches (pending.reverse.map .bit ++ cs)).flatMap Stretch.heads := by
  -- `pending` stands in front of the row as the beginning of its first run
  induction cs generalizing done pending with
  | nil =>
      rw [List.map_nil, headsFrom, flushBits_eq h]
      by_cases hp : pending = []
      · simp [hp, stretches]
      · rw [if_neg hp, stretches_bits (by simpa using hp)]
        simp [stretches, joinRun]
  | cons c cs ih =>
      have hempty : ([] : List Bool).length ≤ 7 := by simp
      -- what stands before a component that is no boolean
      have hclose : ∀ c' : Component, c'.isBit = false →
          (stretches (pending.reverse.map .bit ++ c' :: cs)).flatMap Stretch.heads
            = (if pending = [] then [] else Stretch.heads (.run pending.reverse))
              ++ (stretches (c' :: cs)).flatMap Stretch.heads := by
        intro c' hc'
        by_cases hp : pending = []
        · simp [hp]
        · rw [if_neg hp, stretches_bits (by simpa using hp),
            joinRun_stretches (by simpa using hc'), List.flatMap_cons]
      cases c with
      | bit b =>
          by_cases hfull : pending.length = 7
          · have height : (b :: pending).reverse.length = 8 := by simp [hfull]
            have hbyte : flushBits (b :: pending) done
                = .inline [packBits (b :: pending).reverse] :: done := by simp [flushBits]
            have hrow : pending.reverse.map Component.bit ++ .bit b :: cs
                = (b :: pending).reverse.map .bit ++ cs := by simp
            have hne : (b :: pending).reverse ≠ [] := by simp
            rw [List.map_cons, Component.part, headsFrom, if_pos hfull,
              ih _ hempty, hrow,
              stretches_bits hne, heads_joinRun_eight height, hbyte]
            simp
          · rw [List.map_cons, Component.part, headsFrom, if_neg hfull,
              ih _ (by simp only [List.length_cons]; omega)]
            simp
      | fixed os =>
          rw [List.map_cons, Component.part, headsFrom,
            ih _ hempty, List.reverse_cons,
            flushBits_eq h, hclose _ rfl]
          simp [stretches, Stretch.heads]
      | varying os =>
          rw [List.map_cons, Component.part, headsFrom,
            ih _ hempty, List.reverse_cons,
            flushBits_eq h, hclose _ rfl]
          simp [stretches, Stretch.heads]

/-- The writer has one head for each byte of a run and one for every other stretch. -/
theorem heads_eq (cs : List Component) :
    heads (cs.map Component.part) = (stretches cs).flatMap Stretch.heads := by
  rw [heads, headsFrom_eq cs [] (by simp)]
  rfl

private theorem headSize_eq (hs : List Head) : headSize hs = (hs.map Head.size).sum := by
  have h : ∀ (hs : List Head) (n : Nat),
      hs.foldl (fun n h => n + h.size) n = n + (hs.map Head.size).sum := by
    intro hs
    induction hs with
    | nil => intro n; rfl
    | cons h hs ih => intro n; simp [ih, Nat.add_assoc]
  rw [headSize, h, Nat.zero_add]

private theorem sum_map_const (bytes : Bytes) :
    (bytes.map (Head.size ∘ fun byte => .inline [byte])).sum = bytes.length := by
  induction bytes with
  | nil => rfl
  | cons b bytes ih => simp [Head.size, ih, Nat.add_comm]

theorem headSize_heads (ss : List Stretch) :
    headSize (ss.flatMap Stretch.heads) = headLength ss := by
  rw [headSize_eq]
  induction ss with
  | nil => rfl
  | cons s ss ih =>
      rw [List.flatMap_cons, List.map_append, List.sum_append, ih, headLength_cons]
      cases s with
      | run bits => simp [Stretch.heads, Stretch.headLength, sum_map_const]
      | fixed os => simp [Stretch.heads, Stretch.headLength, Head.size]
      | varying os => simp [Stretch.heads, Stretch.headLength, Head.size]

/-- The tails of the writer are those of the stretches. -/
theorem tails_heads (ss : List Stretch) :
    ((ss.flatMap Stretch.heads).map Head.tail).flatten = written (tailOctets ss) := by
  induction ss with
  | nil => rfl
  | cons s ss ih =>
      rw [List.flatMap_cons, List.map_append, List.flatten_append, ih, tailOctets_cons,
        written_append]
      cases s with
      | run bits => simp [Stretch.heads, Stretch.tail, Head.tail, written]
      | fixed os => simp [Stretch.heads, Stretch.tail, Head.tail, written]
      | varying os => simp [Stretch.heads, Stretch.tail, Head.tail]

/-- Bytes written in place move no offset. -/
private theorem writeHeads_inline (offset : Nat) (done : List Bytes) (bytes : Bytes)
    (hs : List Head) :
    ∃ done', writeHeads offset done (bytes.map (fun byte => .inline [byte]) ++ hs)
        = writeHeads offset done' hs ∧ done'.reverse.flatten = done.reverse.flatten ++ bytes := by
  induction bytes generalizing done with
  | nil => exact ⟨done, rfl, by simp⟩
  | cons b bytes ih =>
      obtain ⟨done', hwrite, hdone⟩ := ih ([b] :: done)
      exact ⟨done', hwrite, by simp [hdone]⟩

/-- Two bytes for a number are its digits, if there are no more than two. -/
theorem twoBytes_eq_ok_iff {n : Nat} {bytes : Bytes} :
    twoBytes n = .ok bytes ↔ n ≤ Limits.twoByte ∧ bytes = Bytes.ofNat 2 n := by
  rw [twoBytes]
  split <;> simp_all [eq_comm]

/-- The heads are written when all offsets fit. -/
theorem writeHeads_eq_ok_iff {ss : List Stretch} {offset : Nat} {done : List Bytes}
    {front : Bytes} :
    writeHeads offset done (ss.flatMap Stretch.heads) = .ok front ↔
      OffsetsFit offset ss ∧ front = done.reverse.flatten ++ written (headOctets offset ss) := by
  induction ss generalizing offset done with
  | nil => simp [writeHeads, OffsetsFit, headOctets, written, eq_comm]
  | cons s ss ih =>
      rw [List.flatMap_cons]
      cases s with
      | run bits =>
          obtain ⟨done', hwrite, hdone⟩ := writeHeads_inline offset done
            (written (runOctets bits)) (ss.flatMap Stretch.heads)
          rw [Stretch.heads, hwrite, ih, hdone]
          simp [OffsetsFit, headOctets, Stretch.head, Stretch.tail]
      | fixed os =>
          rw [Stretch.heads, List.singleton_append, writeHeads, ih]
          simp [OffsetsFit, headOctets, Stretch.head, Stretch.tail]
      | varying os =>
          rw [Stretch.heads, List.singleton_append, writeHeads]
          by_cases hfit : offset ≤ Limits.twoByte
          · have htwo := twoBytes_eq_ok_iff.mpr ⟨hfit, rfl⟩
            simp only [htwo, ih, length_written]
            simp [OffsetsFit, headOctets, Stretch.head, Stretch.tail, hfit]
          · have htwo : twoBytes offset = .error (.tooLong offset Limits.twoByte) := by
              rw [twoBytes, if_neg hfit]
            simp [htwo, OffsetsFit, hfit]

/-- **THE WRITER WRITES THE LAYOUT**, and fails only when an offset does not fit. -/
theorem assemble_eq_ok_iff {cs : List Component} {bytes : Bytes} :
    assemble (cs.map Component.part) = .ok bytes ↔
      OffsetsFit (headLength (stretches cs)) (stretches cs) ∧ bytes = written (rowOctets cs) := by
  rw [assemble, heads_eq, headSize_heads, tails_heads]
  cases hfront : writeHeads (headLength (stretches cs)) []
      ((stretches cs).flatMap Stretch.heads) with
  | error e =>
      have hno : ¬OffsetsFit (headLength (stretches cs)) (stretches cs) := by
        intro hfit
        rw [writeHeads_eq_ok_iff.mpr ⟨hfit, rfl⟩] at hfront
        cases hfront
      simp [hno]
  | ok front =>
      obtain ⟨hfit, rfl⟩ := writeHeads_eq_ok_iff.mp hfront
      simp [hfit, rowOctets, rowOf, eq_comm]

end AvmSandbox
