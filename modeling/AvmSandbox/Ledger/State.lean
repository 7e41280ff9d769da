import AvmSandbox.Encoded
import AvmSandbox.Table

/-! # State — stack values and state slots

    The virtual machine knows two kinds of value.  A state slot is one key of
    an application's state; deleting a number leaves zero behind, deleting
    bytes leaves nothing. -/

namespace AvmSandbox

/-- A value on the stack of the virtual machine. -/
inductive StackValue where
  | uint64 (n : UInt64)
  | bytes (b : Bytes)
  deriving DecidableEq, Inhabited

namespace StackValue

/-- The name of the kind of value. -/
def typeName : StackValue → String
  | uint64 _ => "uint64"
  | bytes _ => "bytes"

/-- Whether the value is a number. -/
def isUint64 : StackValue → Bool
  | uint64 _ => true
  | bytes _ => false

/-- The number. -/
def asUint64 : StackValue → Result UInt64
  | uint64 n => .ok n
  | v => .error (.stackTypeMismatch "uint64" v.typeName)

def asBytes : StackValue → Result Bytes
  | bytes b => .ok b
  | v => .error (.stackTypeMismatch "bytes" v.typeName)

/-- The zero of the same kind. -/
def zeroLike : StackValue → StackValue
  | uint64 _ => uint64 0
  | bytes _ => bytes []

/-- The value as text: a decimal number, or bytes in hexadecimal. -/
def text : StackValue → String
  | uint64 n => toString n.toNat
  | bytes b => "0x" ++ b.hex

end StackValue

/-- One key of global or local state, which may be unset. -/
structure StateSlot where
  key : Bytes
  value? : Option StackValue := none
  deriving DecidableEq

namespace StateSlot

/-- The value of a slot that is set. -/
def value (s : StateSlot) : Result StackValue :=
  match s.value? with
  | some v => .ok v
  | none => .error (.stateNotSet s.key)

/-- Gives the slot a value. -/
def write (s : StateSlot) (v : StackValue) : StateSlot := { s with value? := some v }

/-- Deletes the value: a number becomes zero, bytes become unset. -/
def delete (s : StateSlot) : StateSlot :=
  { s with
    value? :=
      match s.value? with
      | some (.uint64 _) => some (.uint64 0)
      | _ => none }

/-- The slot's bytes as an encoded value. -/
def typed (s : StateSlot) (type : Descriptor) : Result EncodedValue := do
  EncodedValue.ofBytes type (← (← s.value).asBytes)

/-- Gives the slot the bytes of an encoded value. -/
def writeTyped (s : StateSlot) (e : EncodedValue) : StateSlot := s.write (.bytes e.bytes)

end StateSlot

/-! ## Stores of slots -/

/-- The slots of one application, or of one account in it. -/
abbrev StateStore := Table Bytes StateSlot

namespace StateStore

/-- The value at a key and whether it exists.  A key without a value reads as zero. -/
def read (store : StateStore) (key : Bytes) : StackValue × Bool :=
  match (store.get? key).bind StateSlot.value? with
  | some v => (v, true)
  | none => (.uint64 0, false)

/-- The keys that are set, with their values. -/
def values (store : StateStore) : List (Bytes × StackValue) :=
  store.entries.filterMap fun (key, slot) => slot.value?.map fun v => (key, v)

def write (store : StateStore) (key : Bytes) (v : StackValue) : StateStore :=
  store.insert key (((store.get? key).getD { key }).write v)

/-- Deletes the value at a key; a slot that becomes unset is dropped. -/
def delete (store : StateStore) (key : Bytes) : StateStore :=
  match store.get? key with
  | none => store
  | some s =>
      let s := s.delete
      if s.value?.isSome then store.insert key s else store.erase key

/-- Writes the value, or deletes the key when there is none. -/
def update (store : StateStore) (key : Bytes) : Option StackValue → StateStore
  | some v => store.write key v
  | none => store.delete key

end StateStore

end AvmSandbox
