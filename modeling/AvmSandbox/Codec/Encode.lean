import AvmSandbox.Codec.References
import AvmSandbox.Codec.Row
import AvmSandbox.Descriptor.Name

/-! # Encoding — values to bytes

    Integers are big-endian and padded to their width; arrays, texts and byte
    strings of free length are preceded by a two-byte count; components form a
    row.  References are written by value, or by index into reference arrays,
    which may grow on the way.

    * `Descriptor.encodeIn` encodes within a reference layout;
    * `Descriptor.encodeUpTo` and `Descriptor.encode` encode by value, under a
      bound on the total length. -/

namespace AvmSandbox

/-- A computation within a reference layout.  What was appended to its arrays stays when a
    later step fails. -/
abbrev Encoding := ExceptT Fault (StateM Layout)

namespace Encoding

/-- Runs without reference arrays. -/
def plain {α : Type} (action : Encoding α) : Result α := (action.run none).1

/-- Writes a reference: by index when there are arrays, else by value. -/
def reference (index : Referencing UInt8) (byValue : Bytes) : Encoding Bytes := do
  match (← get) with
  | none => return byValue
  | some refs =>
      let (result, refs) := index.run refs
      set (some refs)
      match result with
      | .ok i => return [i]
      | .error e => throw e

end Encoding

/-- A number in `bits` bits. -/
def encodeUint (bits n : Nat) : Result Bytes :=
  if n < Nat.pow 2 bits then .ok (Bytes.ofNat (bits / 8) n)
  else .error (.overflow (Nat.pow 2 bits - 1))

/-- Bytes behind their count. -/
def encodeCounted (content : Bytes) : Result Bytes := do
  return (← twoBytes content.length) ++ content

/-- The content of a byte string, given as bytes or as a list of numbers. -/
def byteContent : Value → Result Bytes
  | .bytes content => .ok content
  | .list items => items.mapM Value.asByte
  | v => .error (v.mismatch "bytes")

/-- The components of a struct in the order of its type: named ones by name, those of a
    tuple by position. -/
def structItems (fields : List (String × Descriptor)) : Value → Result (List Value)
  | .struct given => fields.mapM fun f => Value.named f.1 given
  | .tuple items =>
      if items.length = fields.length then .ok items
      else .error (.arityMismatch fields.length items.length)
  | v => .error (v.mismatch "struct")

namespace Descriptor

/-- One component of a row, given how its type is encoded. -/
def partOf (t : Descriptor) (encode : Value → Encoding Bytes) (v : Value) : Encoding Part := do
  if t.isBool then return .bit (← v.asBool)
  let bytes ← encode v
  return if t.isDynamic then .varying bytes else .fixed bytes

mutual

/-- The encoding of a value as a type. -/
def encodeIn : Descriptor → Value → Encoding Bytes
  | bool, v => do return [if (← v.asBool) then 0x80 else 0]
  | uint bits, v | ufixed bits _, v => do encodeUint bits (← v.asNat)
  | byte, v => do encodeUint 8 (← v.asNat)
  | address, v =>
      match v with
      | .address a | .account a => return a.bytes
      | .bytes b => if b.length = 32 then return b else throw (v.mismatch "address")
      | v => throw (v.mismatch "address")
  | string, v => do encodeCounted (Bytes.ofText (← v.asStr))
  | dynamicBytes, v => do encodeCounted (← byteContent v)
  | staticBytes n, v => do
      let content ← byteContent v
      if content.length ≠ n then throw (.arityMismatch n content.length)
      return content
  | staticArray t n, v => do
      let items ← v.arrayItems
      if items.length ≠ n then throw (.arityMismatch n items.length)
      assemble (← items.mapM (partOf t (encodeIn t)))
  | dynamicArray t, v => do
      let items ← v.arrayItems
      let body ← assemble (← items.mapM (partOf t (encodeIn t)))
      return (← twoBytes items.length) ++ body
  | tuple ts, v => do
      let items ← v.elements
      if items.length ≠ ts.length then throw (.arityMismatch ts.length items.length)
      assemble (← encodeRow ts items)
  | struct _ fs, v => do
      assemble (← encodeFields fs (← structItems fs v))
  | account, v => do
      let a ← v.asAddress
      Encoding.reference (References.accountIndex a) a.bytes
  | asset, v => do
      let id ← v.asU64
      Encoding.reference (References.assetIndex id) (Bytes.ofUInt64 id)
  | application, v => do
      let id ← v.asU64
      Encoding.reference (References.applicationIndex id) (Bytes.ofUInt64 id)

/-- The components of a row of types. -/
def encodeRow : List Descriptor → List Value → Encoding (List Part)
  | t :: ts, v :: vs => do
      let part ← partOf t (encodeIn t) v
      return part :: (← encodeRow ts vs)
  | _, _ => return []

/-- The components of a row of named types. -/
def encodeFields : List (String × Descriptor) → List Value → Encoding (List Part)
  | (_, t) :: fs, v :: vs => do
      let part ← partOf t (encodeIn t) v
      return part :: (← encodeFields fs vs)
  | _, _ => return []

end

/-- The encoding of a value within a reference layout, of at most `max` bytes. -/
def encodeWithin (max : Nat) (t : Descriptor) (v : Value) : Encoding Bytes := do
  let bytes ← t.encodeIn v
  if bytes.length > max then throw (.tooLong bytes.length max)
  return bytes

/-- The encoding of a value with references by value, of at most `max` bytes. -/
def encodeUpTo (max : Nat) (t : Descriptor) (v : Value) : Result Bytes :=
  (t.encodeWithin max v).plain

/-- The encoding of a value with references by value, as a byte string of the stack. -/
def encode (t : Descriptor) (v : Value) : Result Bytes := t.encodeUpTo Limits.byteString v

end Descriptor

end AvmSandbox
