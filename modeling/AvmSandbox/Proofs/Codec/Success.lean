import AvmSandbox.Codec.Encode
import AvmSandbox.Proofs.Action

/-! # Success — when an encoding goes through

    Encoding may fail, and moreover change the reference arrays on the way.  It
    is a sequence of steps, and goes through when every step does.

    * `Encoding.Yields` and `Encoding.yields_bind`: an encoding step by step. -/

namespace AvmSandbox

namespace Encoding

variable {α β : Type} {before after : Layout}

/-- Whether a computation within a layout succeeds with a result and leaves another layout. -/
def Yields (action : Encoding α) (before : Layout) (a : α) (after : Layout) : Prop :=
  action.run before = (.ok a, after)

@[simp] theorem yields_pure {a b : α} :
    Yields (pure a) before b after ↔ a = b ∧ before = after :=
  Action.yields_pure

@[simp] theorem not_yields_throw {e : Fault} {b : α} : ¬Yields (throw e) before b after :=
  Action.not_yields_throw

@[simp] theorem yields_lift {r : Result α} {b : α} :
    Yields (liftM r) before b after ↔ r = .ok b ∧ before = after :=
  Action.yields_lift

/-- A sequence of steps succeeds when each of them does, from where the one before it ended. -/
theorem yields_bind {x : Encoding α} {f : α → Encoding β} {b : β} :
    Yields (x >>= f) before b after ↔
      ∃ a middle, Yields x before a middle ∧ Yields (f a) middle b after :=
  Action.yields_bind

/-- A step that may fail leaves the layout alone. -/
theorem yields_lift_bind {r : Result α} {f : α → Encoding β} {b : β} :
    Yields (liftM r >>= f) before b after ↔ ∃ a, r = .ok a ∧ Yields (f a) before b after :=
  Action.yields_lift_bind

/-- A checked computation succeeds when the check passes. -/
theorem yields_unless {refused : Prop} [Decidable refused] {e : Fault} {x : Encoding α} {b : α} :
    Yields (if refused then (do throw e; x) else x) before b after ↔
      ¬refused ∧ Yields x before b after :=
  Action.yields_unless

end Encoding

end AvmSandbox
