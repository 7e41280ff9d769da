import AvmSandbox.Codec.Decode
import AvmSandbox.Descriptor.MachineLength

/-! # Machine decoding — positions worked out in 64 bits

    A machine that decodes adds up lengths and positions in 64 bits and stops
    where a sum leaves them.  Leaves are decoded as ever, and a row is read as
    far as the positions of its heads can be counted.

    * `fitSlots` is a row up to the first component that ends too far behind;
    * `Descriptor.machineDecode` decodes. -/

namespace AvmSandbox

/-! ## Positions in a row -/

namespace Slot

/-- The bytes that a component adds to the heads, when `left` bits of the byte before are to be
    read yet. -/
def headSize (left : Nat) : Slot → Nat
  | bit => if left = 0 then 1 else 0
  | fixed length _ => length
  | varying _ => 2
  | refused _ => 0

/-- The bits of the last byte that are to be read behind a component. -/
def bitsLeft (left : Nat) : Slot → Nat
  | bit => if left = 0 then 7 else left - 1
  | _ => 0

end Slot

/-- The components of a row up to the first whose head ends beyond 64 bits, which is refused.  In
    front are `pos` bytes, and `done` holds the components that fit, last first. -/
def fitSlots (done : List Slot) (pos left : Nat) : List Slot → List Slot
  | [] => done.reverse
  | slot :: slots =>
      match addLengths pos (slot.headSize left) with
      | .ok pos => fitSlots (slot :: done) pos (slot.bitsLeft left) slots
      | .error cause => (.refused cause :: done).reverse

/-- Reads a row that takes up all the bytes, as far as its positions can be counted. -/
def machineRow (refuse : Malformation → Fault) (bytes : Bytes) (slots : List Slot) :
    Result (List Value) :=
  readRow refuse bytes (fitSlots [] 0 0 slots)

namespace Descriptor

/-! ## Types -/

/-- The least number of bytes of `count` elements with references by value. -/
def machineLeast (t : Descriptor) (count : Nat) : Result Nat :=
  if t.isBool then .ok ((count + 7) / 8)
  else if t.isDynamic then .ok (mulLengths 2 count)
  else do return mulLengths ((← t.machineLength false).getD 0) count

/-- How a component of type `t` is read, given how its type is decoded. -/
def machineSlot (indexed : Bool) (t : Descriptor) (decode : Bytes → Result Value) : Slot :=
  if t.isBool then .bit
  else if t.isDynamic then .varying decode
  else
    match t.machineLength indexed with
    | .ok (some n) => .fixed n decode
    | .ok none => .refused (t.refusal .unbounded)
    | .error cause => .refused cause

mutual

/-- The value a byte string encodes, within a reference layout, as a machine finds it. -/
def machineDecode (layout : Layout) : Descriptor → Bytes → Result Value
  | staticArray t n, bytes => do
      let refuse := (staticArray t n).refusal
      if n > 8 * Limits.box then throw (refuse .tooShort)
      if (← t.machineLeast n) > bytes.length then throw (refuse .tooShort)
      return .list (← machineRow refuse bytes
        (List.replicate n (machineSlot layout.isSome t (machineDecode layout t))))
  | dynamicArray t, bytes => do
      let refuse := (dynamicArray t).refusal
      match bytes with
      | hi :: lo :: body =>
          return .list (← machineRow refuse body (List.replicate (Bytes.toNat [hi, lo])
            (machineSlot layout.isSome t (machineDecode layout t))))
      | _ => throw (refuse .noLength)
  | tuple ts, bytes =>
      return .tuple (← machineRow (tuple ts).refusal bytes (machineSlots layout ts))
  | struct a fs, bytes => do
      let items ← machineRow (struct a fs).refusal bytes (machineFields layout fs)
      return .struct ((fs.map Prod.fst).zip items)
  | t, bytes => t.decodeIn layout bytes

/-- How the components of a row of types are read. -/
def machineSlots (layout : Layout) : List Descriptor → List Slot
  | [] => []
  | t :: ts => machineSlot layout.isSome t (machineDecode layout t) :: machineSlots layout ts

/-- How the components of a row of named types are read. -/
def machineFields (layout : Layout) : List (String × Descriptor) → List Slot
  | [] => []
  | (_, t) :: fs => machineSlot layout.isSome t (machineDecode layout t) :: machineFields layout fs

end

end Descriptor

end AvmSandbox
