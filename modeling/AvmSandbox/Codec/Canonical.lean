import AvmSandbox.Codec.Encode

/-! # Canonical values — struct fields in declaration order

    The encoder finds each field of a struct by its name and never looks at the
    others, so many values share one encoding.  The canonical one among them has
    the declared fields, in their order and no more, at every depth. -/

namespace AvmSandbox.Descriptor

mutual

/-- The value with the fields of every struct in declaration order. -/
def canonical : Descriptor → Value → Result Value
  | struct _ fs, .struct given => do
      return .struct (← canonicalNamed fs (← structItems fs (.struct given)))
  | struct _ fs, .tuple items => return .tuple (← canonicalFields fs items)
  | tuple ts, .tuple items => return .tuple (← canonicalRow ts items)
  | tuple ts, .list items => return .list (← canonicalRow ts items)
  | staticArray t _, .list items => return .list (← items.mapM (canonical t))
  | dynamicArray t, .list items => return .list (← items.mapM (canonical t))
  | _, v => return v

/-- Canonical components of a row of types. -/
def canonicalRow : List Descriptor → List Value → Result (List Value)
  | t :: ts, v :: vs => do
      let w ← canonical t v
      return w :: (← canonicalRow ts vs)
  | _, _ => return []

/-- Canonical components of a row of named types. -/
def canonicalFields : List (String × Descriptor) → List Value → Result (List Value)
  | (_, t) :: fs, v :: vs => do
      let w ← canonical t v
      return w :: (← canonicalFields fs vs)
  | _, _ => return []

/-- Canonical components of a row of named types, with their names. -/
def canonicalNamed :
    List (String × Descriptor) → List Value → Result (List (String × Value))
  | (name, t) :: fs, v :: vs => do
      let w ← canonical t v
      return (name, w) :: (← canonicalNamed fs vs)
  | _, _ => return []

end

end AvmSandbox.Descriptor
