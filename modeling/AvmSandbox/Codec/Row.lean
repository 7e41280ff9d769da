import AvmSandbox.Value

/-! # Rows — the head and tail layout of a sequence

    The components of a tuple or array are written as a row: first the heads of
    all components, then the tails.  A static component is its own head.  The
    head of a dynamic one is the two-byte offset of its tail, counted from the
    start of the row.  Booleans next to each other share a head byte, the first
    in the highest bit, eight to a byte.

    * `Part` is one encoded component; `assemble` writes a row of them;
    * `Slot` says how one component is read; `readRow` reads a row of them.  It
      takes the heads in order and then the tails in order, and refuses tails
      that overlap, leave gaps or end outside the row. -/

namespace AvmSandbox

/-! ## Bits -/

/-- At most eight bits as a byte, the first in the highest place. -/
def packBits : List Bool → UInt8
  | [] => 0
  | b :: bs => (if b then (0x80 : UInt8) else 0) ||| (packBits bs >>> 1)

/-- The highest bit of a byte. -/
def topBit (byte : UInt8) : Bool := (byte &&& 0x80) != 0

/-! ## Writing -/

/-- One encoded component of a row. -/
inductive Part where
  /-- A boolean, to be packed with its neighbours. -/
  | bit (value : Bool)
  /-- A static component. -/
  | fixed (bytes : Bytes)
  /-- A dynamic component. -/
  | varying (bytes : Bytes)
  deriving DecidableEq, Repr

/-- What stands in the head of a row. -/
inductive Head where
  /-- The bytes themselves. -/
  | inline (bytes : Bytes)
  /-- The offset of these bytes in the tail. -/
  | pointer (tail : Bytes)
  deriving DecidableEq, Repr

namespace Head

/-- The bytes a head takes. -/
def size : Head → Nat
  | inline bytes => bytes.length
  | pointer _ => 2

/-- The bytes a head has in the tail. -/
def tail : Head → Bytes
  | inline _ => []
  | pointer bytes => bytes

end Head

/-- Closes the current byte of packed bits, which are given last first. -/
def flushBits (pending : List Bool) (done : List Head) : List Head :=
  if pending.isEmpty then done else .inline [packBits pending.reverse] :: done

/-- The heads of a row; `done` holds those already formed and `pending` the bits of the
    current byte, both last first. -/
def headsFrom (done : List Head) (pending : List Bool) : List Part → List Head
  | [] => (flushBits pending done).reverse
  | .bit b :: rest =>
      if pending.length = 7 then headsFrom (flushBits (b :: pending) done) [] rest
      else headsFrom done (b :: pending) rest
  | .fixed bytes :: rest => headsFrom (.inline bytes :: flushBits pending done) [] rest
  | .varying bytes :: rest => headsFrom (.pointer bytes :: flushBits pending done) [] rest

def heads (parts : List Part) : List Head := headsFrom [] [] parts

/-- The bytes of all heads. -/
def headSize (hs : List Head) : Nat := hs.foldl (fun n h => n + h.size) 0

/-- Two bytes for a length or an offset. -/
def twoBytes (n : Nat) : Result Bytes :=
  if n ≤ Limits.twoByte then .ok (Bytes.ofNat 2 n) else .error (.tooLong n Limits.twoByte)

/-- Writes the heads when the next tail starts at `offset`; `done` holds the pieces already
    written, last first. -/
def writeHeads (offset : Nat) (done : List Bytes) : List Head → Result Bytes
  | [] => .ok done.reverse.flatten
  | .inline bytes :: rest => writeHeads offset (bytes :: done) rest
  | .pointer tail :: rest =>
      match twoBytes offset with
      | .error e => .error e
      | .ok pointer => writeHeads (offset + tail.length) (pointer :: done) rest

/-- Writes a row. -/
def assemble (parts : List Part) : Result Bytes :=
  let hs := heads parts
  match writeHeads (headSize hs) [] hs with
  | .error e => .error e
  | .ok front => .ok (front ++ (hs.map Head.tail).flatten)

/-! ## Reading -/

/-- How one component of a row is read. -/
inductive Slot where
  /-- A packed boolean. -/
  | bit
  /-- A static component of known length. -/
  | fixed (length : Nat) (read : Bytes → Result Value)
  /-- A dynamic component. -/
  | varying (read : Bytes → Result Value)
  /-- A component that cannot be laid out. -/
  | refused (cause : Fault)

/-- A component after the heads are read. -/
inductive Cell where
  /-- Read from its head. -/
  | known (value : Value)
  /-- To be read from its tail, which starts at `start`. -/
  | later (start : Nat) (read : Bytes → Result Value)

/-- The bits of the current byte that are still to be read: how many, and the byte with the
    next one on top. -/
structure Unread where
  count : Nat
  byte : UInt8

/-- Reads the heads of a row.  `pos` bytes are behind, `rest` is ahead, and `done` holds the
    cells already read, last first. -/
def readHeads (refuse : Malformation → Fault) (pos : Nat) (rest : Bytes) (bits : Unread)
    (done : List Cell) : List Slot → Result (Nat × Bytes × List Cell)
  | [] => .ok (pos, rest, done.reverse)
  | .bit :: slots =>
      match bits.count with
      | left + 1 =>
          readHeads refuse pos rest ⟨left, bits.byte <<< 1⟩
            (.known (.bool (topBit bits.byte)) :: done) slots
      | 0 =>
          match rest with
          | [] => .error (refuse .tooShort)
          | byte :: rest =>
              readHeads refuse (pos + 1) rest ⟨7, byte <<< 1⟩
                (.known (.bool (topBit byte)) :: done) slots
  | .fixed length read :: slots =>
      let raw := rest.take length
      if raw.length < length then .error (refuse .tooShort) else
        match read raw with
        | .error e => .error e
        | .ok v => readHeads refuse (pos + length) (rest.drop length) ⟨0, 0⟩ (.known v :: done) slots
  | .varying read :: slots =>
      match rest with
      | hi :: lo :: rest =>
          readHeads refuse (pos + 2) rest ⟨0, 0⟩ (.later (Bytes.toNat [hi, lo]) read :: done) slots
      | _ => .error (refuse .tooShort)
  | .refused cause :: _ => .error cause

/-- Where the next tail among the cells starts. -/
def nextStart? : List Cell → Option Nat
  | [] => none
  | .known _ :: cells => nextStart? cells
  | .later start _ :: _ => some start

/-- Reads the tails of a row, which have to follow each other without gaps.  `pos` bytes are
    behind, `rest` is ahead, and `done` holds the values already read, last first. -/
def readTails (refuse : Malformation → Fault) (pos : Nat) (rest : Bytes) (done : List Value) :
    List Cell → Result (List Value)
  | [] => .ok done.reverse
  | .known v :: cells => readTails refuse pos rest (v :: done) cells
  | .later start read :: cells =>
      if start ≠ pos then .error (refuse (.offset start)) else
        match nextStart? cells with
        | none =>
            match read rest with
            | .error e => .error e
            | .ok v => readTails refuse pos rest (v :: done) cells
        | some finish =>
            if finish < start then .error (refuse (.offset start)) else
              let raw := rest.take (finish - start)
              if raw.length < finish - start then .error (refuse (.offset start)) else
                match read raw with
                | .error e => .error e
                | .ok v => readTails refuse finish (rest.drop (finish - start)) (v :: done) cells

/-- Reads a row that takes up all the bytes. -/
def readRow (refuse : Malformation → Fault) (bytes : Bytes) (slots : List Slot) :
    Result (List Value) :=
  match readHeads refuse 0 bytes ⟨0, 0⟩ [] slots with
  | .error e => .error e
  | .ok (pos, rest, cells) =>
      if (nextStart? cells).isNone && !rest.isEmpty then
        .error (refuse (.wrongSize pos (pos + rest.length)))
      else readTails refuse pos rest [] cells

end AvmSandbox
