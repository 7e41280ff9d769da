import AvmSandbox.Codec.References
import AvmSandbox.Codec.Row
import AvmSandbox.Descriptor.Length
import AvmSandbox.Descriptor.Name

/-! # Decoding — bytes to values

    Decoding reads exactly the layout that encoding writes and refuses every
    other: buffers that are too short or too long, counts that disagree with
    the content, and misplaced tails.  References are resolved in the arrays of
    the layout when there are any. -/

namespace AvmSandbox

namespace Descriptor

/-- The refusal of bytes as an encoding of a type. -/
def refusal (t : Descriptor) (cause : Malformation) : Fault := .malformed t.name cause

/-- Refuses bytes of another length than `length`. -/
def expectSize (t : Descriptor) (length : Nat) (bytes : Bytes) : Result Unit :=
  if bytes.length = length then .ok ()
  else .error (t.refusal (.wrongSize length bytes.length))

/-- An address of exactly 32 bytes. -/
def readAddress (t : Descriptor) (bytes : Bytes) : Result Address :=
  match Address.ofBytes? bytes with
  | some a => .ok a
  | none => .error (t.refusal (.wrongSize 32 bytes.length))

/-- An id of exactly eight bytes. -/
def readId (t : Descriptor) (bytes : Bytes) : Result UInt64 := do
  t.expectSize 8 bytes
  return UInt64.ofNat bytes.toNat

/-- An index of exactly one byte. -/
def readIndex (t : Descriptor) (bytes : Bytes) : Result UInt8 :=
  match bytes with
  | [i] => .ok i
  | _ => .error (t.refusal (.wrongSize 1 bytes.length))

/-- The content behind a two-byte count of bytes. -/
def readCounted (t : Descriptor) (bytes : Bytes) : Result Bytes :=
  match bytes with
  | hi :: lo :: content =>
      let stated := Bytes.toNat [hi, lo]
      if content.length = stated then .ok content
      else .error (t.refusal (.lengthMismatch stated content.length))
  | _ => .error (t.refusal .noLength)

/-- The least number of bytes of `count` elements with references by value. -/
def leastRow (t : Descriptor) (count : Nat) : Nat :=
  if t.isBool then (count + 7) / 8
  else if t.isDynamic then 2 * count
  else t.fixedLength?.getD 0 * count

/-- How a component of type `t` is read, given how its type is decoded. -/
def slotOf (indexed : Bool) (t : Descriptor) (decode : Bytes → Result Value) : Slot :=
  if t.isBool then .bit
  else if t.isDynamic then .varying decode
  else
    match t.length? indexed with
    | some n => .fixed n decode
    | none => .refused (t.refusal .unbounded)

mutual

/-- The value a byte string encodes, within a reference layout. -/
def decodeIn (layout : Layout) : Descriptor → Bytes → Result Value
  | bool, bytes =>
      match bytes with
      | [b] => .ok (.bool (topBit b))
      | _ => .error (bool.refusal (.wrongSize 1 bytes.length))
  | uint bits, bytes => do
      (uint bits).expectSize (bits / 8) bytes
      return .uint bytes.toNat
  | ufixed bits places, bytes => do
      (ufixed bits places).expectSize (bits / 8) bytes
      return .uint bytes.toNat
  | byte, bytes => do
      byte.expectSize 1 bytes
      return .uint bytes.toNat
  | address, bytes => return .address (← address.readAddress bytes)
  | string, bytes => do
      let content ← string.readCounted bytes
      match content.text? with
      | some s => return .str s
      | none => throw (string.refusal .text)
  | dynamicBytes, bytes => return .bytes (← dynamicBytes.readCounted bytes)
  | staticBytes n, bytes => do
      (staticBytes n).expectSize n bytes
      return .bytes bytes
  | staticArray t n, bytes => do
      let refuse := (staticArray t n).refusal
      if n > 8 * Limits.box ∨ t.leastRow n > bytes.length then throw (refuse .tooShort)
      return .list (← readRow refuse bytes
        (List.replicate n (slotOf layout.isSome t (decodeIn layout t))))
  | dynamicArray t, bytes => do
      let refuse := (dynamicArray t).refusal
      match bytes with
      | hi :: lo :: body =>
          return .list (← readRow refuse body
            (List.replicate (Bytes.toNat [hi, lo]) (slotOf layout.isSome t (decodeIn layout t))))
      | _ => throw (refuse .noLength)
  | tuple ts, bytes =>
      return .tuple (← readRow (tuple ts).refusal bytes (rowSlots layout ts))
  | struct a fs, bytes => do
      let items ← readRow (struct a fs).refusal bytes (fieldSlots layout fs)
      return .struct ((fs.map Prod.fst).zip items)
  | account, bytes =>
      match layout with
      | some refs => do return .account (← refs.accountAt (← account.readIndex bytes))
      | none => return .account (← account.readAddress bytes)
  | asset, bytes =>
      match layout with
      | some refs => do return .asset (← refs.assetAt (← asset.readIndex bytes))
      | none => return .asset (← asset.readId bytes)
  | application, bytes =>
      match layout with
      | some refs => do return .application (← refs.applicationAt (← application.readIndex bytes))
      | none => return .application (← application.readId bytes)

/-- How the components of a row of types are read. -/
def rowSlots (layout : Layout) : List Descriptor → List Slot
  | [] => []
  | t :: ts => slotOf layout.isSome t (decodeIn layout t) :: rowSlots layout ts

/-- How the components of a row of named types are read. -/
def fieldSlots (layout : Layout) : List (String × Descriptor) → List Slot
  | [] => []
  | (_, t) :: fs => slotOf layout.isSome t (decodeIn layout t) :: fieldSlots layout fs

end

/-- The value a byte string encodes with references by value. -/
def decode (t : Descriptor) (bytes : Bytes) : Result Value := t.decodeIn none bytes

end Descriptor

/-! ## Logged return values -/

/-- The four bytes that mark a logged return value. -/
def returnMarker : Bytes := [0x15, 0x1f, 0x7c, 0x75]

/-- The log entry of a return value. -/
def returnLog (encoded : Bytes) : Bytes := returnMarker ++ encoded

/-- The encoded return value of a log entry. -/
def stripReturnMarker (log : Bytes) : Result Bytes :=
  if log.take 4 = returnMarker then .ok (log.drop 4) else .error .noReturnMarker

/-- Whether a buffer is a logged return value or a bare encoding. -/
inductive Framing where
  | bare
  | logged
  deriving DecidableEq, Repr

/-- The encoding inside a buffer. -/
def Framing.body : Framing → Bytes → Result Bytes
  | bare, bytes => .ok bytes
  | logged, bytes => stripReturnMarker bytes

end AvmSandbox
