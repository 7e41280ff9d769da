import AvmSandbox.Descriptor.Basic

/-! # Lengths — how many bytes a static type takes

    Static types have one length.  Booleans that follow each other inside a
    tuple or array share bytes, eight to a byte.  Resource references are
    shorter when they are laid out as indexes.

    * `Width` is what one component contributes to a row of components and
      `rowLength` adds a row up;
    * `Descriptor.length?` is the length of a type, absent for dynamic types and
      for arrays too long for any memory. -/

namespace AvmSandbox

/-- What one component contributes to the length of a row. -/
inductive Width where
  /-- One bit, packed with its neighbours. -/
  | bit
  /-- A whole number of bytes. -/
  | bytes (count : Nat)
  /-- No fixed length. -/
  | free
  deriving DecidableEq, Repr

/-- The bytes of a row of components, when `run` bits are already in the current byte. -/
def rowLength (run : Nat) : List Width → Option Nat
  | [] => some 0
  | .bit :: rest =>
      (rowLength ((run + 1) % 8) rest).map fun n => (if run = 0 then 1 else 0) + n
  | .bytes count :: rest => (rowLength 0 rest).map fun n => count + n
  | .free :: _ => none

namespace Descriptor

/-- The width of a component of type `t` whose length is known. -/
def widthOf (t : Descriptor) (length : Option Nat) : Width :=
  if t.isBool then .bit else
    match length with
    | some n => .bytes n
    | none => .free

mutual

/-- The length of encodings of a static type; `indexed` says that references are laid out
    as one-byte indexes. -/
def length? (indexed : Bool) : Descriptor → Option Nat
  | bool | byte => some 1
  | uint bits | ufixed bits _ => some (bits / 8)
  | address => some 32
  | account => some (if indexed then 1 else 32)
  | asset | application => some (if indexed then 1 else 8)
  | staticBytes n => some n
  | staticArray t n =>
      if t.isBool then some ((n + 7) / 8) else
        (length? indexed t).bind fun w => if w * n < Limits.length then some (w * n) else none
  | tuple ts => rowLength 0 (widths indexed ts)
  | struct _ fs => rowLength 0 (fieldWidths indexed fs)
  | string | dynamicBytes | dynamicArray _ => none

/-- The widths of a row of types. -/
def widths (indexed : Bool) : List Descriptor → List Width
  | [] => []
  | t :: ts => widthOf t (length? indexed t) :: widths indexed ts

/-- The widths of a row of named types. -/
def fieldWidths (indexed : Bool) : List (String × Descriptor) → List Width
  | [] => []
  | (_, t) :: fs => widthOf t (length? indexed t) :: fieldWidths indexed fs

end

/-- The length of encodings of a static type with references laid out by value. -/
def fixedLength? (t : Descriptor) : Option Nat := t.length? false

end Descriptor

end AvmSandbox
