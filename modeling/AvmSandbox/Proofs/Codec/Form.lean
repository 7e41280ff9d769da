import AvmSandbox.Codec.Encode
import AvmSandbox.Descriptor.Length
import Mathlib.Algebra.Ring.Nat
import Mathlib.Data.List.Nodup

/-! # Forms — which types make sense and which values belong to them

    A type is made of the types inside it, and a value of such a type of entries
    for them.  Conditions are stated here for one type or one value alone and
    then asked for throughout.

    * `inductOn` is the induction over a type by the types inside it;
    * `Throughout` and `Everywhere` ask for a condition at every depth;
    * `Valid` and `WellFormed` are the conditions on types;
    * `HasVariants`, `HasForm` and `Representable` are those on values. -/

namespace AvmSandbox

namespace Descriptor

/-! ## Types inside a type -/

/-- The types of the components of a sequence. -/
def inner : Descriptor → List Descriptor
  | staticArray t _ | dynamicArray t => [t]
  | tuple ts => ts
  | struct _ fs => fs.map Prod.snd
  | _ => []

/-- The types inside a type are smaller. -/
theorem sizeOf_inner {t c : Descriptor} (h : c ∈ t.inner) : sizeOf c < sizeOf t := by
  cases t with
  | staticArray t n =>
      rw [List.mem_singleton.mp h, staticArray.sizeOf_spec]
      omega
  | dynamicArray t =>
      rw [List.mem_singleton.mp h, dynamicArray.sizeOf_spec]
      omega
  | tuple ts =>
      have hlt := List.sizeOf_lt_of_mem (show c ∈ ts from h)
      rw [tuple.sizeOf_spec]
      omega
  | struct a fs =>
      obtain ⟨f, hf, rfl⟩ := List.mem_map.mp (show c ∈ fs.map Prod.snd from h)
      have hlt := List.sizeOf_lt_of_mem hf
      obtain ⟨name, t⟩ := f
      rw [Prod.mk.sizeOf_spec] at hlt
      rw [struct.sizeOf_spec]
      show sizeOf t < _
      omega
  | _ => cases h

/-- Induction over a type by the types inside it. -/
theorem inductOn {motive : Descriptor → Prop} (t : Descriptor)
    (step : ∀ t, (∀ c ∈ t.inner, motive c) → motive t) : motive t :=
  step t fun c _ => inductOn c step
termination_by sizeOf t
decreasing_by exact sizeOf_inner (by assumption)

/-- Whether a condition holds for a type and all types inside it, at every depth. -/
inductive Throughout (P : Descriptor → Prop) : Descriptor → Prop where
  | intro {t : Descriptor} : P t → (∀ c ∈ t.inner, Throughout P c) → Throughout P t

namespace Throughout

variable {P Q : Descriptor → Prop} {t c : Descriptor}

theorem here (h : Throughout P t) : P t := by
  cases h with
  | intro h _ => exact h

theorem inside (h : Throughout P t) (hc : c ∈ t.inner) : Throughout P c := by
  cases h with
  | intro _ h => exact h c hc

/-- A weaker property holds wherever the stronger does. -/
theorem mono (hPQ : ∀ t, P t → Q t) (h : Throughout P t) : Throughout Q t := by
  induction h with
  | intro h _ ih => exact .intro (hPQ _ h) ih

/-- A type without types inside has to meet the condition by itself only. -/
theorem of_leaf (ht : t.inner = []) (h : P t) : Throughout P t := by
  refine .intro h ?_
  rw [ht]
  simp

/-- A type with one type inside has to meet it beside that one. -/
theorem of_single (ht : t.inner = [c]) (h : P t) (hc : Throughout P c) : Throughout P t := by
  refine .intro h ?_
  rw [ht]
  simpa using hc

end Throughout

/-! ## Conditions on types -/

/-- Integers have between 8 and 512 bits, in whole bytes. -/
def WidthPermitted : Descriptor → Prop
  | uint bits | ufixed bits _ => 8 ≤ bits ∧ bits ≤ Limits.uintBits ∧ bits % 8 = 0
  | _ => True

/-- The fields of a struct have different names. -/
def NamesDistinct : Descriptor → Prop
  | struct _ fs => (fs.map Prod.fst).Nodup
  | _ => True

/-- A static array has no more elements than a box has bits. -/
def ArrayBounded : Descriptor → Prop
  | staticArray _ n => n ≤ 8 * Limits.box
  | _ => True

/-- Static components of a sequence have a length. -/
def ComponentsSized (t : Descriptor) : Prop :=
  ∀ c ∈ t.inner, c.isDynamic = false → ∃ n, c.fixedLength? = some n

/-- What a type of the format has to be like by itself. -/
structure ValidHere (t : Descriptor) : Prop where
  width : t.WidthPermitted
  names : t.NamesDistinct

/-- What a type has to be like by itself to be laid out. -/
structure WellFormedHere (t : Descriptor) : Prop extends ValidHere t where
  bounded : t.ArrayBounded
  sized : t.ComponentsSized

/-- A type of the format: widths are permitted and names distinct, at every depth. -/
def Valid : Descriptor → Prop := Throughout ValidHere

/-- A type that can be laid out: at every depth it is valid, its arrays are bounded and its
    static components have a length. -/
def WellFormed : Descriptor → Prop := Throughout WellFormedHere

/-- A type without inner types is well-formed when its width is permitted. -/
theorem wellFormed_leaf {t : Descriptor} (ht : t.inner = []) (hwidth : t.WidthPermitted) :
    t.WellFormed := by
  refine Throughout.of_leaf ht ⟨⟨hwidth, ?_⟩, ?_, ?_⟩
  · cases t with
    | struct a fs =>
        obtain rfl := List.map_eq_nil_iff.mp ht
        exact List.nodup_nil
    | _ => trivial
  · cases t with
    | staticArray t n => cases ht
    | _ => trivial
  · rw [ComponentsSized, ht]
    simp

/-- Arrays of free length can be laid out if their elements can and have a length. -/
theorem wellFormed_dynamicArray {t : Descriptor} {n : Nat} (ht : t.WellFormed)
    (hn : t.fixedLength? = some n) : (dynamicArray t).WellFormed := by
  refine .of_single rfl ⟨⟨trivial, trivial⟩, trivial, ?_⟩ ht
  intro c hc _
  rw [List.mem_singleton.mp hc]
  exact ⟨n, hn⟩

/-- So can bounded arrays of fixed length. -/
theorem wellFormed_staticArray {t : Descriptor} {n count : Nat} (ht : t.WellFormed)
    (hn : t.fixedLength? = some n) (hcount : count ≤ 8 * Limits.box) :
    (staticArray t count).WellFormed := by
  refine .of_single rfl ⟨⟨trivial, trivial⟩, hcount, ?_⟩ ht
  intro c hc _
  rw [List.mem_singleton.mp hc]
  exact ⟨n, hn⟩

/-- Well-formed types are valid ones, whose lengths are all defined besides. -/
theorem WellFormed.valid {t : Descriptor} (h : t.WellFormed) : t.Valid :=
  Throughout.mono (fun _ h => h.toValidHere) h

/-! ## Entries of a value -/

/-- The components of a value, each with its type.  The fields of a struct are those of its
    type, found by their names. -/
def entries : Descriptor → Value → List (Descriptor × Value)
  | staticArray t _, .list items | dynamicArray t, .list items => items.map fun v => (t, v)
  | tuple ts, .tuple items => ts.zip items
  | struct _ fs, .struct given =>
      fs.filterMap fun f => (Value.named f.1 given).toOption.map fun v => (f.2, v)
  | _, _ => []

/-- Entries have the types inside the type. -/
theorem mem_inner_of_mem_entries {t : Descriptor} {v : Value} {c : Descriptor × Value}
    (h : c ∈ t.entries v) : c.1 ∈ t.inner := by
  cases t with
  | staticArray t n =>
      cases v with
      | list items =>
          obtain ⟨v, _, rfl⟩ := List.mem_map.mp h
          exact List.mem_singleton_self t
      | _ => cases h
  | dynamicArray t =>
      cases v with
      | list items =>
          obtain ⟨v, _, rfl⟩ := List.mem_map.mp h
          exact List.mem_singleton_self t
      | _ => cases h
  | tuple ts =>
      cases v with
      | tuple items => exact (List.of_mem_zip h).1
      | _ => cases h
  | struct a fs =>
      cases v with
      | struct given =>
          obtain ⟨f, hf, hentry⟩ := List.mem_filterMap.mp h
          obtain ⟨v, _, rfl⟩ := Option.map_eq_some_iff.mp hentry
          exact List.mem_map_of_mem hf
      | _ => cases h
  | _ => cases h

/-- Whether a condition holds for a value and all its entries, at every depth. -/
inductive Everywhere (P : Descriptor → Value → Prop) : Descriptor → Value → Prop where
  | intro {t : Descriptor} {v : Value} : P t v → (∀ c ∈ t.entries v, Everywhere P c.1 c.2) →
      Everywhere P t v

namespace Everywhere

variable {P : Descriptor → Value → Prop} {t : Descriptor} {v : Value}

theorem here (h : Everywhere P t v) : P t v := by
  cases h with
  | intro h _ => exact h

theorem inside {c : Descriptor × Value} (h : Everywhere P t v) (hc : c ∈ t.entries v) :
    Everywhere P c.1 c.2 := by
  cases h with
  | intro _ h => exact h c hc

theorem mono {Q : Descriptor → Value → Prop} (hPQ : ∀ t v, P t v → Q t v)
    (h : Everywhere P t v) : Everywhere Q t v := by
  induction h with
  | intro h _ ih => exact .intro (hPQ _ _ h) ih

end Everywhere

/-- A property holds everywhere in a value when it holds of the value and everywhere in each
    entry. -/
theorem everywhere_iff {P : Descriptor → Value → Prop} {t : Descriptor} {v : Value} :
    Everywhere P t v ↔ P t v ∧ ∀ c ∈ t.entries v, Everywhere P c.1 c.2 :=
  ⟨fun h => ⟨h.here, fun _ hc => h.inside hc⟩, fun h => .intro h.1 h.2⟩

/-! ## Conditions on values -/

/-- Whether a value is of the variant that decoding produces for the type. -/
def VariantHere : Descriptor → Value → Prop
  | bool, .bool _ | byte, .uint _ | uint _, .uint _ | ufixed _ _, .uint _ => True
  | address, .address _ | string, .str _ => True
  | dynamicBytes, .bytes _ | staticBytes _, .bytes _ => True
  | dynamicArray _, .list _ | staticArray _ _, .list _ => True
  | tuple _, .tuple _ | struct _ _, .struct _ => True
  | account, .account _ | asset, .asset _ | application, .application _ => True
  | _, _ => False

/-- Whether a value has as many components as the type asks for, and all fields of a struct. -/
def ArityHere : Descriptor → Value → Prop
  | staticBytes n, .bytes content => content.length = n
  | staticArray _ n, .list items => items.length = n
  | tuple ts, .tuple items => items.length = ts.length
  | struct _ fs, .struct given => ∀ f ∈ fs, f.1 ∈ given.map Prod.fst
  | _, _ => True

/-- Whether a number fits its width, and the count of a dynamic array its two bytes. -/
def FitsHere : Descriptor → Value → Prop
  | uint bits, .uint n | ufixed bits _, .uint n => n < 2 ^ bits
  | byte, .uint n => n < 2 ^ 8
  | dynamicArray _, .list items => items.length ≤ Limits.twoByte
  | _, _ => True

/-- The value has the variant that decoding produces, at every position. -/
def HasVariants : Descriptor → Value → Prop := Everywhere VariantHere

/-- The value has the variant that decoding produces and the arity the type asks for, at every
    position. -/
def HasForm : Descriptor → Value → Prop :=
  Everywhere fun t v => t.VariantHere v ∧ t.ArityHere v

/-- All numbers fit their widths and all counts their two bytes. -/
def Representable : Descriptor → Value → Prop := Everywhere FitsHere

end Descriptor

end AvmSandbox
