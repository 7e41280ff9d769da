import AvmSandbox.Fault

/-! # Descriptors — the types of encoded values

    A descriptor says how a value is laid out on the wire.  A struct is a tuple
    whose components have names; `byte[]` and `byte[N]` have descriptors of
    their own beside the arrays of `byte`, with the same layout.

    * `Descriptor` and its decidable equality;
    * `isDynamic`: whether encodings of the type differ in length;
    * `element?` and `components?`: the types inside;
    * `uintOf` and `ufixedOf`: the checked constructors. -/

namespace AvmSandbox

/-- The type of an encoded value. -/
inductive Descriptor where
  /-- `bool` -/
  | bool
  /-- `uint<bits>` -/
  | uint (bits : Nat)
  /-- `ufixed<bits>x<places>`, carried as the integer of its digits -/
  | ufixed (bits places : Nat)
  /-- `byte` -/
  | byte
  /-- `address` -/
  | address
  /-- `string` -/
  | string
  /-- `byte[]` -/
  | dynamicBytes
  /-- `byte[N]` -/
  | staticBytes (length : Nat)
  /-- `T[N]` -/
  | staticArray (element : Descriptor) (length : Nat)
  /-- `T[]` -/
  | dynamicArray (element : Descriptor)
  /-- `(T1,T2,...)` -/
  | tuple (types : List Descriptor)
  /-- a tuple with named components -/
  | struct (name : String) (fields : List (String × Descriptor))
  /-- `account` reference -/
  | account
  /-- `asset` reference -/
  | asset
  /-- `application` reference -/
  | application
  deriving Inhabited

namespace Descriptor

/-! ## Equality -/

mutual

/-- Whether two descriptors are equal. -/
def equal : Descriptor → Descriptor → Bool
  | bool, bool | byte, byte | address, address | string, string => true
  | dynamicBytes, dynamicBytes | account, account | asset, asset => true
  | application, application => true
  | uint m, uint n => m == n
  | ufixed m p, ufixed n q => m == n && p == q
  | staticBytes m, staticBytes n => m == n
  | staticArray t m, staticArray u n => equal t u && m == n
  | dynamicArray t, dynamicArray u => equal t u
  | tuple ts, tuple us => equalTypes ts us
  | struct a fs, struct b gs => a == b && equalFields fs gs
  | _, _ => false

/-- Whether two lists of descriptors are equal. -/
def equalTypes : List Descriptor → List Descriptor → Bool
  | [], [] => true
  | t :: ts, u :: us => equal t u && equalTypes ts us
  | _, _ => false

/-- Whether two lists of named descriptors are equal. -/
def equalFields : List (String × Descriptor) → List (String × Descriptor) → Bool
  | [], [] => true
  | (a, t) :: fs, (b, u) :: gs => a == b && equal t u && equalFields fs gs
  | _, _ => false

end

mutual

theorem eq_of_equal : ∀ {a b : Descriptor}, equal a b = true → a = b
  | bool, b, h | byte, b, h | address, b, h | string, b, h | dynamicBytes, b, h
  | account, b, h | asset, b, h | application, b, h
  | uint _, b, h | ufixed _ _, b, h | staticBytes _, b, h => by
      cases b <;> simp_all [equal]
  | staticArray t m, b, h => by
      cases b with
      | staticArray u n =>
          simp only [equal, Bool.and_eq_true, beq_iff_eq] at h
          rw [eq_of_equal h.1, h.2]
      | _ => simp [equal] at h
  | dynamicArray t, b, h => by
      cases b with
      | dynamicArray u =>
          simp only [equal] at h
          rw [eq_of_equal h]
      | _ => simp [equal] at h
  | tuple ts, b, h => by
      cases b with
      | tuple us =>
          simp only [equal] at h
          rw [eq_of_equalTypes h]
      | _ => simp [equal] at h
  | struct a fs, b, h => by
      cases b with
      | struct c gs =>
          simp only [equal, Bool.and_eq_true, beq_iff_eq] at h
          rw [h.1, eq_of_equalFields h.2]
      | _ => simp [equal] at h

theorem eq_of_equalTypes : ∀ {ts us : List Descriptor}, equalTypes ts us = true → ts = us
  | [], us, h => by cases us <;> simp_all [equalTypes]
  | t :: ts, us, h => by
      cases us with
      | nil => simp [equalTypes] at h
      | cons u us =>
          simp only [equalTypes, Bool.and_eq_true] at h
          rw [eq_of_equal h.1, eq_of_equalTypes h.2]

theorem eq_of_equalFields :
    ∀ {fs gs : List (String × Descriptor)}, equalFields fs gs = true → fs = gs
  | [], gs, h => by cases gs <;> simp_all [equalFields]
  | (a, t) :: fs, gs, h => by
      cases gs with
      | nil => simp [equalFields] at h
      | cons g gs =>
          obtain ⟨b, u⟩ := g
          simp only [equalFields, Bool.and_eq_true, beq_iff_eq] at h
          rw [h.1.1, eq_of_equal h.1.2, eq_of_equalFields h.2]

end

mutual

theorem equal_self : ∀ a : Descriptor, equal a a = true
  | bool | byte | address | string | dynamicBytes | account | asset | application
  | uint _ | ufixed _ _ | staticBytes _ => by simp [equal]
  | staticArray t _ => by simp [equal, equal_self t]
  | dynamicArray t => by simp [equal, equal_self t]
  | tuple ts => by simp [equal, equalTypes_self ts]
  | struct _ fs => by simp [equal, equalFields_self fs]

theorem equalTypes_self : ∀ ts : List Descriptor, equalTypes ts ts = true
  | [] => rfl
  | t :: ts => by simp [equalTypes, equal_self t, equalTypes_self ts]

theorem equalFields_self : ∀ fs : List (String × Descriptor), equalFields fs fs = true
  | [] => rfl
  | (_, t) :: fs => by simp [equalFields, equal_self t, equalFields_self fs]

end

instance : DecidableEq Descriptor := fun a b =>
  decidable_of_iff (equal a b = true) ⟨eq_of_equal, fun h => h ▸ equal_self a⟩

/-! ## Views -/

/-- Whether the type is `bool`, whose values are packed inside sequences. -/
def isBool : Descriptor → Bool
  | bool => true
  | _ => false

/-- Whether values of the type are resource references. -/
def isReference : Descriptor → Bool
  | account | asset | application => true
  | _ => false

/-- The element type of an array or byte string. -/
def element? : Descriptor → Option Descriptor
  | staticArray t _ | dynamicArray t => some t
  | staticBytes _ | dynamicBytes => some byte
  | _ => none

/-- The component types of a tuple or struct. -/
def components? : Descriptor → Option (List Descriptor)
  | tuple ts => some ts
  | struct _ fs => some (fs.map Prod.snd)
  | _ => none

mutual

/-- Whether encodings of the type differ in length. -/
def isDynamic : Descriptor → Bool
  | string | dynamicBytes | dynamicArray _ => true
  | staticArray t _ => t.isDynamic
  | tuple ts => anyDynamic ts
  | struct _ fs => anyFieldDynamic fs
  | _ => false

/-- Whether one of the types is dynamic. -/
def anyDynamic : List Descriptor → Bool
  | [] => false
  | t :: ts => t.isDynamic || anyDynamic ts

/-- Whether one of the named types is dynamic. -/
def anyFieldDynamic : List (String × Descriptor) → Bool
  | [] => false
  | (_, t) :: fs => t.isDynamic || anyFieldDynamic fs

end

/-! ## Checked constructors -/

/-- Integers have between 8 and 512 bits, in whole bytes. -/
def checkWidth (bits : Nat) : Except DescriptorError Unit :=
  if bits = 0 ∨ bits > Limits.uintBits ∨ bits % 8 ≠ 0 then .error (.width bits) else .ok ()

/-- `uint<bits>` of a permitted width. -/
def uintOf (bits : Nat) : Except DescriptorError Descriptor := do
  checkWidth bits
  return uint bits

/-- `ufixed<bits>x<places>` of a permitted width and precision; the width is checked first. -/
def ufixedOf (bits places : Nat) : Except DescriptorError Descriptor := do
  checkWidth bits
  if places = 0 ∨ places > Limits.precision then throw (.precision places)
  return ufixed bits places

end Descriptor

end AvmSandbox
