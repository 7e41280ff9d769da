import AvmSandbox.Descriptor.Length

/-! # Machine lengths — lengths worked out in 64 bits

    `Descriptor.length?` adds lengths up as numbers.  A machine adds them up in
    64 bits.  It gives no length for an array whose product is too long, but it
    stops where a sum is.

    * `addLengths` and `mulLengths` are the sum and the product of two lengths;
    * `Share` is what one component adds to the length of a row, and `sumFrom`
      adds a row up from the left;
    * `Descriptor.machineLength` is the length of a type as a machine finds it. -/

namespace AvmSandbox

/-- The sum of two lengths, which stops where it leaves 64 bits. -/
def addLengths (a b : Nat) : Result Nat :=
  if a + b < Limits.length then .ok (a + b) else .error .lengthOverflow

/-- The product of two lengths, which is the greatest of 64 bits where it leaves them. -/
def mulLengths (a b : Nat) : Nat := min (a * b) (Limits.length - 1)

/-- What one component adds to the length of a row. -/
inductive Share where
  /-- One bit, packed with its neighbours. -/
  | bit
  /-- Its own length, as far as there is one and it can be worked out. -/
  | measured (length : Result (Option Nat))

/-- The length of a row when `total` bytes are counted and `run` bits are in the current byte.
    Components behind one without a length are not looked at. -/
def sumFrom (total run : Nat) : List Share → Result (Option Nat)
  | [] => .ok (some total)
  | .bit :: rest => do
      sumFrom (← addLengths total (if run = 0 then 1 else 0)) ((run + 1) % 8) rest
  | .measured length :: rest => do
      match ← length with
      | none => return none
      | some n => sumFrom (← addLengths total n) 0 rest

namespace Descriptor

/-- The share of a component of type `t` in its row. -/
def shareOf (t : Descriptor) (length : Result (Option Nat)) : Share :=
  if t.isBool then .bit else .measured length

mutual

/-- The length of encodings of a static type as a machine works it out; `indexed` says that
    references are laid out as one-byte indexes. -/
def machineLength (indexed : Bool) : Descriptor → Result (Option Nat)
  | staticArray t n =>
      if t.isBool then .ok (some ((n + 7) / 8)) else do
        return (← machineLength indexed t).bind fun w =>
          if w * n < Limits.length then some (w * n) else none
  | tuple ts => sumFrom 0 0 (shares indexed ts)
  | struct _ fs => sumFrom 0 0 (fieldShares indexed fs)
  | t => .ok (t.length? indexed)

/-- The shares of a row of types. -/
def shares (indexed : Bool) : List Descriptor → List Share
  | [] => []
  | t :: ts => shareOf t (machineLength indexed t) :: shares indexed ts

/-- The shares of a row of named types. -/
def fieldShares (indexed : Bool) : List (String × Descriptor) → List Share
  | [] => []
  | (_, t) :: fs => shareOf t (machineLength indexed t) :: fieldShares indexed fs

end

end Descriptor

end AvmSandbox
