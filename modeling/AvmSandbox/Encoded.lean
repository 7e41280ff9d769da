import AvmSandbox.Codec.Canonical
import AvmSandbox.Codec.Decode

/-! # Encoded values — a type, its bytes, and the native value

    An encoded value carries its bytes beside the value they stand for.  Both
    are set together: by encoding a value, by decoding bytes, or by encoding
    anew after an edit.  Equality looks at the bytes and the shape of the type
    only.

    * `encode`, `decode`: the two ways to make one;
    * `length`, `item`, `field`: access to components, each encoded on its own;
    * `replaceItem`, `push`: edits, which encode the container anew. -/

namespace AvmSandbox

/-- A value together with its type and encoding. -/
structure EncodedValue where
  type : Descriptor
  bytes : Bytes
  native : Value
  deriving DecidableEq

/-- A computation that may edit an encoded value. -/
abbrev Editing := ExceptT Fault (StateM EncodedValue)

namespace EncodedValue

/-- Encodes a value within a reference layout, in at most `max` bytes. -/
def encodeWithin (max : Nat) (type : Descriptor) (v : Value) : Encoding EncodedValue := do
  let bytes ← type.encodeWithin max v
  let native ← type.canonical v
  return ⟨type, bytes, native⟩

/-- Encodes a value with references by value, in at most `max` bytes. -/
def encodeUpTo (max : Nat) (type : Descriptor) (v : Value) : Result EncodedValue :=
  (encodeWithin max type v).plain

/-- Encodes a value with references by value. -/
def encode (type : Descriptor) (v : Value) : Result EncodedValue :=
  encodeUpTo Limits.byteString type v

/-- Decodes a buffer with references by value. -/
def decode (framing : Framing) (type : Descriptor) (buffer : Bytes) : Result EncodedValue := do
  let bytes ← framing.body buffer
  return ⟨type, bytes, ← type.decode bytes⟩

/-- Decodes a bare encoding. -/
def ofBytes (type : Descriptor) (bytes : Bytes) : Result EncodedValue := decode .bare type bytes

/-- The log entry of the value as a return value. -/
def log (e : EncodedValue) : Bytes := returnLog e.bytes

/-- Whether two encoded values have the same shape and the same bytes. -/
def same (a b : EncodedValue) : Bool := a.type.sameShape b.type && a.bytes == b.bytes

/-- Compares with a value of the same shape; other shapes cannot be compared. -/
def equals (a b : EncodedValue) : Result Bool :=
  if a.type.sameShape b.type then .ok (a.bytes == b.bytes)
  else .error (.typeMismatch a.type.name b.type.name)

/-! ## Components -/

/-- The number of components of a tuple, struct, array or byte string. -/
def length (e : EncodedValue) : Result Nat :=
  match e.type, e.native with
  | .tuple ts, _ => .ok ts.length
  | .struct _ fs, _ => .ok fs.length
  | .staticArray _ n, _ | .staticBytes n, _ => .ok n
  | _, .bytes b => .ok b.length
  | _, v => return (← v.elements).length

/-- The type of a component. -/
def itemType (e : EncodedValue) (index length : Nat) : Result Descriptor :=
  match e.type with
  | .tuple ts =>
      match ts[index]? with
      | some t => .ok t
      | none => .error (.indexOutOfBounds index length)
  | .struct _ fs =>
      match fs[index]? with
      | some f => .ok f.2
      | none => .error (.indexOutOfBounds index length)
  | t =>
      match t.element? with
      | some element => .ok element
      | none => .error (.typeMismatch "array" t.name)

/-- Refuses an index that is not below the number of components, which is returned. -/
def checkIndex (e : EncodedValue) (index : Nat) : Result Nat := do
  let length ← e.length
  if index ≥ length then throw (.indexOutOfBounds index length)
  return length

/-- A component, encoded on its own. -/
def item (e : EncodedValue) (index : Nat) : Result EncodedValue := do
  let length ← e.checkIndex index
  let type ← e.itemType index length
  let value ←
    match e.native with
    | .bytes b => pure (b[index]?.map fun byte => Value.uint byte.toNat)
    | v => pure (← v.elements)[index]?
  match value with
  | some v => encode type v
  | none => throw (.indexOutOfBounds index length)

/-- A struct's field, encoded on its own. -/
def field (e : EncodedValue) (name : String) : Result EncodedValue := do
  match e.type with
  | .struct _ fs =>
      match fs.find? fun f => f.1 == name with
      | some f => encode f.2 (← e.native.field name)
      | none => throw (.typeMismatch s!"field '{name}'" "missing field")
  | t => throw (.typeMismatch "struct" t.name)

/-! ## Edits -/

/-- Takes a new native value and encodes it. -/
def reencode (native : Value) : Editing Unit := do
  let e ← get
  let bytes ← e.type.encode native
  set { e with bytes }
  let native ← e.type.canonical native
  set { e with bytes, native }

/-- The native value with one component replaced. -/
def setItem (native : Value) (index length : Nat) (v : Value) : Result Value := do
  match native with
  | .bytes b =>
      let byte ← v.asByte
      if index < b.length then return .bytes (b.set index byte)
      else throw (.indexOutOfBounds index length)
  | .list items =>
      if index < items.length then return .list (items.set index v)
      else throw (.indexOutOfBounds index length)
  | .tuple items =>
      if index < items.length then return .tuple (items.set index v)
      else throw (.indexOutOfBounds index length)
  | .struct fields =>
      match fields[index]? with
      | some f => return .struct (fields.set index (f.1, v))
      | none => throw (.indexOutOfBounds index length)
  | other => throw (other.mismatch "array")

/-- Replaces a component. -/
def replaceItem (index : Nat) (v : Value) : Editing Unit := do
  let e ← get
  let length ← e.checkIndex index
  reencode (← setItem e.native index length v)

/-- Appends to an array or byte string of free length. -/
def push (v : Value) : Editing Unit := do
  let e ← get
  match e.type, e.native with
  | .dynamicArray _, .list items => reencode (.list (items ++ [v]))
  | .dynamicBytes, .bytes b => reencode (.bytes (b ++ [← v.asByte]))
  | t, _ => throw (.typeMismatch "dynamic array" t.name)

end EncodedValue

end AvmSandbox
