import AvmSandbox.Fault

/-! # Values — what contracts compute with

    A value is the native side of an encoding.  It is not indexed by its
    descriptor: one type may be given values of several forms (a struct as a
    tuple, a byte string as a list of numbers), and the encoder decides which.

    * `Value` and its decidable equality;
    * the readings `bool?`, `uint?`, `u64?`, … which refuse other forms. -/

namespace AvmSandbox

/-- A native value. -/
inductive Value where
  | bool (value : Bool)
  /-- Integers of every width, fixed-point digits, and single bytes. -/
  | uint (value : Nat)
  | address (value : Address)
  | str (value : String)
  | bytes (value : Bytes)
  /-- Arrays of either kind. -/
  | list (items : List Value)
  | tuple (items : List Value)
  /-- Named values, in any order and possibly with repeated names. -/
  | struct (fields : List (String × Value))
  | account (value : Address)
  | asset (id : UInt64)
  | application (id : UInt64)
  deriving Inhabited

namespace Value

/-! ## Equality -/

mutual

/-- Whether two values are equal. -/
def equal : Value → Value → Bool
  | bool a, bool b => a == b
  | uint a, uint b => a == b
  | address a, address b => decide (a = b)
  | str a, str b => a == b
  | bytes a, bytes b => a == b
  | list xs, list ys => equalItems xs ys
  | tuple xs, tuple ys => equalItems xs ys
  | struct fs, struct gs => equalFields fs gs
  | account a, account b => decide (a = b)
  | asset a, asset b => a == b
  | application a, application b => a == b
  | _, _ => false

/-- Whether two lists of values are equal. -/
def equalItems : List Value → List Value → Bool
  | [], [] => true
  | x :: xs, y :: ys => equal x y && equalItems xs ys
  | _, _ => false

/-- Whether two lists of named values are equal. -/
def equalFields : List (String × Value) → List (String × Value) → Bool
  | [], [] => true
  | (a, x) :: fs, (b, y) :: gs => a == b && equal x y && equalFields fs gs
  | _, _ => false

end

mutual

theorem eq_of_equal : ∀ {a b : Value}, equal a b = true → a = b
  | bool _, b, h | uint _, b, h | address _, b, h | str _, b, h | bytes _, b, h
  | account _, b, h | asset _, b, h | application _, b, h => by
      cases b <;> simp_all [equal]
  | list xs, b, h => by
      cases b with
      | list ys =>
          simp only [equal] at h
          rw [eq_of_equalItems h]
      | _ => simp [equal] at h
  | tuple xs, b, h => by
      cases b with
      | tuple ys =>
          simp only [equal] at h
          rw [eq_of_equalItems h]
      | _ => simp [equal] at h
  | struct fs, b, h => by
      cases b with
      | struct gs =>
          simp only [equal] at h
          rw [eq_of_equalFields h]
      | _ => simp [equal] at h

theorem eq_of_equalItems : ∀ {xs ys : List Value}, equalItems xs ys = true → xs = ys
  | [], ys, h => by cases ys <;> simp_all [equalItems]
  | x :: xs, ys, h => by
      cases ys with
      | nil => simp [equalItems] at h
      | cons y ys =>
          simp only [equalItems, Bool.and_eq_true] at h
          rw [eq_of_equal h.1, eq_of_equalItems h.2]

theorem eq_of_equalFields :
    ∀ {fs gs : List (String × Value)}, equalFields fs gs = true → fs = gs
  | [], gs, h => by cases gs <;> simp_all [equalFields]
  | (a, x) :: fs, gs, h => by
      cases gs with
      | nil => simp [equalFields] at h
      | cons g gs =>
          obtain ⟨b, y⟩ := g
          simp only [equalFields, Bool.and_eq_true, beq_iff_eq] at h
          rw [h.1.1, eq_of_equal h.1.2, eq_of_equalFields h.2]

end

mutual

theorem equal_self : ∀ a : Value, equal a a = true
  | bool _ | uint _ | address _ | str _ | bytes _ | account _ | asset _
  | application _ => by simp [equal]
  | list xs => by simp [equal, equalItems_self xs]
  | tuple xs => by simp [equal, equalItems_self xs]
  | struct fs => by simp [equal, equalFields_self fs]

theorem equalItems_self : ∀ xs : List Value, equalItems xs xs = true
  | [] => rfl
  | x :: xs => by simp [equalItems, equal_self x, equalItems_self xs]

theorem equalFields_self : ∀ fs : List (String × Value), equalFields fs fs = true
  | [] => rfl
  | (_, x) :: fs => by simp [equalFields, equal_self x, equalFields_self fs]

end

instance : DecidableEq Value := fun a b =>
  decidable_of_iff (equal a b = true) ⟨eq_of_equal, fun h => h ▸ equal_self a⟩

/-! ## Readings -/

/-- The name of a value's form in reports. -/
def form : Value → String
  | bool _ => "bool"
  | uint _ => "uint"
  | address _ => "address"
  | str _ => "string"
  | bytes _ => "bytes"
  | list _ => "array"
  | tuple _ => "tuple"
  | struct _ => "struct"
  | account _ => "account"
  | asset _ => "asset"
  | application _ => "application"

/-- The refusal of a value where another form is expected. -/
def mismatch (expected : String) (v : Value) : Fault := .typeMismatch expected v.form

/-- The truth value. -/
def asBool : Value → Result Bool
  | bool b => .ok b
  | v => .error (v.mismatch "bool")

/-- The number, of any size. -/
def asNat : Value → Result Nat
  | uint n => .ok n
  | v => .error (v.mismatch "uint")

/-- The number or id as 64 bits, absent when it does not fit. -/
def u64? : Value → Result (Option UInt64)
  | uint n => .ok (if n < UInt64.size then some (UInt64.ofNat n) else none)
  | asset id | application id => .ok (some id)
  | v => .error (v.mismatch "uint")

/-- The number or id as 64 bits. -/
def asU64 (v : Value) : Result UInt64 :=
  match v.u64? with
  | .error e => .error e
  | .ok (some n) => .ok n
  | .ok none => .error (.overflow (UInt64.size - 1))

/-- The number as a single byte. -/
def asByte (v : Value) : Result UInt8 :=
  match v.asU64 with
  | .error e => .error e
  | .ok n => if n.toNat ≤ Limits.oneByte then .ok n.toUInt8 else .error (.overflow Limits.oneByte)

/-- The text. -/
def asStr : Value → Result String
  | str s => .ok s
  | v => .error (v.mismatch "string")

/-- The byte string. -/
def asBytes : Value → Result Bytes
  | bytes b => .ok b
  | v => .error (v.mismatch "bytes")

def asAddress : Value → Result Address
  | address a | account a => .ok a
  | v => .error (v.mismatch "address")

/-- The components of a list, tuple or struct in the order given. -/
def elements : Value → Result (List Value)
  | list xs | tuple xs => .ok xs
  | struct fs => .ok (fs.map Prod.snd)
  | v => .error (v.mismatch "array")

/-- The elements of an array. -/
def arrayItems : Value → Result (List Value)
  | list xs => .ok xs
  | v => .error (v.mismatch "array")

/-- The first of some named values with a name. -/
def named (name : String) (fields : List (String × Value)) : Result Value :=
  match fields.find? fun f => f.1 == name with
  | some f => .ok f.2
  | none => .error (.typeMismatch s!"field '{name}'" "missing field")

/-- The value of a struct's field. -/
def field (v : Value) (name : String) : Result Value :=
  match v with
  | struct fs => named name fs
  | v => .error (v.mismatch "struct")

end Value

end AvmSandbox
