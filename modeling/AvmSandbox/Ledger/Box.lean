import AvmSandbox.Ledger.State

/-! # Boxes — byte storage of fixed length

    A box holds bytes under a key.  Its length is set when it is created and
    changes only by resizing, by deleting, or when a value of a dynamic type is
    stored.  Beside the bytes, the store remembers values it has decoded; a raw
    write to a box drops what is remembered of it.

    The operations are written for any monad over a store that can fail.  They run
    in `BoxAction`, where a failure takes back what was changed.

    * `BoxStore` with the raw operations and `decoded`;
    * `TypedBox`: one box that holds values of one type;
    * `BoxMap`: boxes whose keys are a common beginning and an encoded key. -/

namespace AvmSandbox

/-- The boxes of one application. -/
structure BoxStore where
  /-- The raw bytes. -/
  boxes : Table Bytes Bytes := {}
  /-- The values remembered from reading or storing. -/
  cache : Table Bytes EncodedValue := {}

/-- A computation on a box store.  A failure leaves the store as it was. -/
abbrev BoxAction := StateT BoxStore Result

/-- Where operations on a box store can run.  Whether a failure takes back what was changed is not
    for the operations to say. -/
class abbrev BoxMonad (m : Type → Type) :=
  Monad m, MonadStateOf BoxStore m, MonadExceptOf Fault m, MonadLiftT Result m

namespace BoxStore

/-- The number of boxes. -/
def size (s : BoxStore) : Nat := s.boxes.size

def has (s : BoxStore) (key : Bytes) : Bool := s.boxes.contains key

def content? (s : BoxStore) (key : Bytes) : Option Bytes := s.boxes.get? key

def content (s : BoxStore) (key : Bytes) : Result Bytes :=
  match s.content? key with
  | some bytes => .ok bytes
  | none => .error (.boxNotCreated key)

def length (s : BoxStore) (key : Bytes) : Result Nat := return (← s.content key).length

/-- Boxes are bounded in size. -/
def checkSize (size : Nat) : Result Unit :=
  if size > Limits.box then .error (.boxTooLarge size) else .ok ()

/-- Refuses a range that does not end inside `size` bytes.  The end that is reported stays
    below the bound on lengths. -/
def checkRange (start length size : Nat) : Result Unit :=
  if start + length > size then
    .error (.boxOutOfBounds start (min (start + length) (Limits.length - 1)) size)
  else .ok ()

/-- Part of a box. -/
def extract (s : BoxStore) (key : Bytes) (start length : Nat) : Result Bytes := do
  let bytes ← s.content key
  checkRange start length bytes.length
  return (bytes.drop start).take length

/-- Gives a box new bytes and forgets what was decoded from it. -/
def write (key bytes : Bytes) (m : Type → Type := BoxAction) [BoxMonad m] : m Unit :=
  modify fun s => { boxes := s.boxes.insert key bytes, cache := s.cache.erase key }

/-- Cuts or pads with zeros to a length. -/
def fit (size : Nat) (bytes : Bytes) : Bytes :=
  bytes.take size ++ List.replicate (size - bytes.length) 0

/-- Creates a box of zeros.  The answer is false when there is one of that size already. -/
def create (key : Bytes) (size : Nat) (m : Type → Type := BoxAction) [BoxMonad m] :
    m Bool := do
  checkSize size
  match (← get).content? key with
  | some bytes =>
      if bytes.length ≠ size then throw (.boxSizeMismatch key bytes.length size)
      return false
  | none =>
      write key (List.replicate size 0) m
      return true

/-- Writes a whole box, which is created when it is missing and else must have the same
    length. -/
def put (key bytes : Bytes) (m : Type → Type := BoxAction) [BoxMonad m] : m Unit := do
  checkSize bytes.length
  if let some existing := (← get).content? key then
    if existing.length ≠ bytes.length then throw .boxWrongSize
  write key bytes m

/-- Deletes a box.  The answer tells whether there was one. -/
def delete (key : Bytes) (m : Type → Type := BoxAction) [BoxMonad m] : m Bool := do
  let s ← get
  set ({ boxes := s.boxes.erase key, cache := s.cache.erase key } : BoxStore)
  return s.has key

/-- Overwrites part of a box. -/
def replace (key : Bytes) (start : Nat) (bytes : Bytes)
    (m : Type → Type := BoxAction) [BoxMonad m] : m Unit := do
  let content ← (← get).content key
  checkRange start bytes.length content.length
  write key (content.take start ++ bytes ++ content.drop (start + bytes.length)) m

/-- Puts bytes in the place of `length` others and keeps the length of the box by cutting or
    padding at the end. -/
def splice (key : Bytes) (start length : Nat) (bytes : Bytes)
    (m : Type → Type := BoxAction) [BoxMonad m] : m Unit := do
  let content ← (← get).content key
  checkRange start length content.length
  write key
    (fit content.length (content.take start ++ bytes ++ content.drop (start + length))) m

/-- Changes the length of a box by cutting or padding at the end. -/
def resize (key : Bytes) (size : Nat) (m : Type → Type := BoxAction) [BoxMonad m] :
    m Unit := do
  checkSize size
  write key (fit size (← (← get).content key)) m

/-- The bytes of a box that a value of a type takes up: the leading ones when the type is
    static and they suffice, else all. -/
def occupied (type : Descriptor) (content : Bytes) : Bytes :=
  match type.fixedLength? with
  | some n => if n ≤ content.length then content.take n else content
  | none => content

/-- The value of a box as a type, remembered when it was decoded as that type before. -/
def decoded (key : Bytes) (type : Descriptor) (m : Type → Type := BoxAction) [BoxMonad m] :
    m EncodedValue := do
  let s ← get
  match (s.cache.get? key).filter fun e => e.type = type with
  | some e => return e
  | none =>
      let e ← EncodedValue.ofBytes type (occupied type (← s.content key))
      set { s with cache := s.cache.insert key e }
      return e

def remember (key : Bytes) (e : EncodedValue) (m : Type → Type := BoxAction) [BoxMonad m] :
    m Unit :=
  modify fun s => { s with cache := s.cache.insert key e }

end BoxStore

/-! ## Typed boxes -/

/-- A box that holds values of one type. -/
structure TypedBox where
  key : Bytes
  type : Descriptor

namespace TypedBox

/-- The size a box of a type is created with.  It may not be smaller than the type's length,
    and a dynamic type has to be given one. -/
def sizeFor (type : Descriptor) (size : Option Nat) : Result Nat :=
  match type.fixedLength?, size with
  | none, none => .error (.boxSizeRequired type.name)
  | some least, none => .ok least
  | none, some n => .ok n
  | some least, some n => if n < least then .error (.boxSizeTooSmall least) else .ok n

def create (box : TypedBox) (size : Option Nat) (m : Type → Type := BoxAction) [BoxMonad m] :
    m Bool := do
  BoxStore.create box.key (← sizeFor box.type size) m

def value (box : TypedBox) (m : Type → Type := BoxAction) [BoxMonad m] : m EncodedValue :=
  BoxStore.decoded box.key box.type m

def value? (box : TypedBox) (m : Type → Type := BoxAction) [BoxMonad m] :
    m (Option EncodedValue) := do
  if (← get).has box.key then return some (← box.value m) else return none

/-- Writes the bytes of a value: in place at the start of an existing box when the type is
    static, else as the whole content. -/
def writeBytes (box : TypedBox) (bytes : Bytes) (m : Type → Type := BoxAction) [BoxMonad m] :
    m Unit := do
  match (← get).content? box.key with
  | none => BoxStore.put box.key bytes m
  | some existing =>
      if !box.type.isDynamic then
        if bytes.length > existing.length then throw .boxWrongSize
        BoxStore.replace box.key 0 bytes m
      else
        if existing.length ≠ bytes.length then BoxStore.resize box.key bytes.length m
        BoxStore.put box.key bytes m

/-- Stores an encoded value of the box's type. -/
def store (box : TypedBox) (e : EncodedValue) (m : Type → Type := BoxAction) [BoxMonad m] :
    m Unit := do
  if e.type ≠ box.type then throw (.typeMismatch box.type.name e.type.name)
  box.writeBytes e.bytes m
  BoxStore.remember box.key e m

/-- Encodes a value as the box's type and stores it. -/
def storeNative (box : TypedBox) (v : Value) (m : Type → Type := BoxAction) [BoxMonad m] :
    m Unit := do
  box.store (← EncodedValue.encodeUpTo Limits.box box.type v) m

end TypedBox

/-! ## Box maps -/

/-- Boxes whose keys are a common stem followed by an encoded key. -/
structure BoxMap where
  stem : Bytes
  keyType : Descriptor
  valueType : Descriptor

namespace BoxMap

def boxKey (map : BoxMap) (key : Value) : Result Bytes :=
  return map.stem ++ (← map.keyType.encode key)

def entry (map : BoxMap) (key : Value) : Result TypedBox :=
  return ⟨← map.boxKey key, map.valueType⟩

def value (map : BoxMap) (key : Value) (m : Type → Type := BoxAction) [BoxMonad m] :
    m EncodedValue := do
  (← map.entry key).value m

def value? (map : BoxMap) (key : Value) (m : Type → Type := BoxAction) [BoxMonad m] :
    m (Option EncodedValue) := do
  (← map.entry key).value? m

def store (map : BoxMap) (key v : Value) (m : Type → Type := BoxAction) [BoxMonad m] : m Unit := do
  (← map.entry key).storeNative v m

def contains (map : BoxMap) (key : Value) (m : Type → Type := BoxAction) [BoxMonad m] :
    m Bool := do
  let boxKey ← map.boxKey key
  return (← get).has boxKey

def delete (map : BoxMap) (key : Value) (m : Type → Type := BoxAction) [BoxMonad m] : m Bool := do
  BoxStore.delete (← map.boxKey key) m

def length (map : BoxMap) (key : Value) (m : Type → Type := BoxAction) [BoxMonad m] :
    m Nat := do
  let boxKey ← map.boxKey key
  (← get).length boxKey

end BoxMap

end AvmSandbox
