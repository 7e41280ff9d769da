import AvmSandbox.Ledger.Box
import AvmSandbox.Proofs.Action
import AvmSandbox.Proofs.Codec.Built

/-! # Box requests — what can be asked of a box store

    An operation on a box store runs in two ways: in place, where what it has
    changed stays when it fails, and in `BoxAction`, where a failure takes the
    changes back.  Nearly every operation checks before it writes.  A typed write
    of a dynamic type writes twice, but what it puts has the length that it has
    just resized the box to.  So the two ways of running agree, and what holds of
    a run that succeeds holds however the operation ends.

    * `run_put_eq_ok_iff`, `of_run_create` and the others: single actions;
    * `BoxRequest`, `execute`: an operation with any arguments, and its run in place;
    * `Agree`, `execute_eq`: a failure in place has changed nothing;
    * `Passes`, and with it `Reachable` and `InUse`: what operations of a kind
      lead to. -/

namespace AvmSandbox

/-! ## Actions -/

namespace BoxStore

variable {α β : Type} {s s' : BoxStore} {key bytes content : Bytes}

/-- A sequence succeeds when both steps do, the second from the store that the first one leaves. -/
theorem run_bind_eq_ok_iff {action : BoxAction α} {next : α → BoxAction β} {b : β} :
    (action >>= next).run s = .ok (b, s') ↔
      ∃ a middle, action.run s = .ok (a, middle) ∧ (next a).run middle = .ok (b, s') := by
  rw [StateT.run_bind, bind_eq_ok_iff]
  simp only [Prod.exists]

theorem run_get_bind_eq_ok_iff {next : BoxStore → BoxAction β} {b : β} :
    (get >>= next).run s = .ok (b, s') ↔ (next s).run s = .ok (b, s') := Iff.rfl

/-- A check that passes leaves the store alone, and one that does not is the end. -/
theorem run_lift_bind_eq_ok_iff {r : Result α} {next : α → BoxAction β} {b : β} :
    (liftM r >>= next).run s = .ok (b, s') ↔ ∃ a, r = .ok a ∧ (next a).run s = .ok (b, s') := by
  cases r with
  | error e =>
      constructor
      · intro h
        cases h
      · rintro ⟨a, h, -⟩
        cases h
  | ok a =>
      show (next a).run s = .ok (b, s') ↔ _
      simp

theorem run_lift_eq_ok_iff {r : Result α} {a : α} :
    (liftM r : BoxAction α).run s = .ok (a, s') ↔ r = .ok a ∧ s' = s := by
  cases r with
  | error e => exact iff_of_false (fun h => nomatch h) (fun h => nomatch h.1)
  | ok b =>
      show Except.ok (b, s) = .ok (a, s') ↔ _
      simp [eq_comm]

/-- A size is permitted when a box can be that large. -/
theorem checkSize_eq_ok_iff {size : Nat} {u : Unit} :
    checkSize size = .ok u ↔ size ≤ Limits.box := by
  rw [checkSize]
  split
  · next hlt => simp [Nat.not_le.mpr hlt]
  · next hle => simp [Nat.not_lt.mp hle]

theorem content_eq_ok_iff : s.content key = .ok content ↔ s.content? key = some content := by
  rw [BoxStore.content]
  cases s.content? key <;> simp

/-- A range is permitted when it ends inside the box. -/
theorem checkRange_eq_ok_iff {start length size : Nat} {u : Unit} :
    checkRange start length size = .ok u ↔ start + length ≤ size := by
  rw [checkRange]
  split
  · next hlt => simp [Nat.not_le.mpr hlt]
  · next hle => simp [Nat.not_lt.mp hle]

/-- Cutting or padding gives the length that was asked for. -/
theorem length_fit (size : Nat) (bytes : Bytes) : (fit size bytes).length = size := by
  rw [fit, List.length_append, List.length_take, List.length_replicate]
  omega

/-- The store with new bytes in a box, of which nothing is remembered. -/
def written (s : BoxStore) (key bytes : Bytes) : BoxStore :=
  { boxes := s.boxes.insert key bytes, cache := s.cache.erase key }

/-- What is written to a box is seen under its key and nowhere else. -/
theorem content?_written (s : BoxStore) (key bytes other : Bytes) :
    (s.written key bytes).content? other = if other = key then some bytes else s.content? other :=
  Table.get?_insert ..

/-! ## Raw operations -/

/-- A missing box is created with zeros, or there is one of that size and nothing happens. -/
theorem of_run_create {size : Nat} {created : Bool}
    (h : (create key size).run s = .ok (created, s')) :
    s' = s ∨
      s.content? key = none ∧ size ≤ Limits.box ∧
        s' = s.written key (List.replicate size 0) := by
  obtain ⟨_, hsize, h⟩ := run_lift_bind_eq_ok_iff.mp h
  have h := run_get_bind_eq_ok_iff.mp h
  split at h
  · split at h
    · cases h
    · cases h
      exact .inl rfl
  · next habsent =>
      cases h
      exact .inr ⟨habsent, checkSize_eq_ok_iff.mp hsize, rfl⟩

/-- A whole box is written over one of the same length, or over none. -/
theorem run_put_eq_ok_iff {u : Unit} :
    (put key bytes).run s = .ok (u, s') ↔
      bytes.length ≤ Limits.box ∧
        (∀ existing, s.content? key = some existing → existing.length = bytes.length) ∧
        s' = s.written key bytes := by
  rw [put, run_lift_bind_eq_ok_iff]
  simp only [run_get_bind_eq_ok_iff, checkSize_eq_ok_iff]
  cases s.content? key with
  | none =>
      constructor
      · rintro ⟨_, hsize, h⟩
        cases h
        refine ⟨hsize, fun _ hother => ?_, rfl⟩
        cases hother
      · rintro ⟨hsize, -, rfl⟩
        exact ⟨(), hsize, rfl⟩
  | some existing =>
      dsimp only
      constructor
      · rintro ⟨_, hsize, h⟩
        split at h
        · cases h
        · next hlength =>
            cases h
            rw [ne_eq, Decidable.not_not] at hlength
            refine ⟨hsize, fun other hother => ?_, rfl⟩
            cases hother
            exact hlength
      · rintro ⟨hsize, hlength, rfl⟩
        rw [if_neg (not_not_intro (hlength existing rfl))]
        exact ⟨(), hsize, rfl⟩

/-- A deletion takes the box and what is remembered of it. -/
theorem of_run_delete {deleted : Bool} (h : (delete key).run s = .ok (deleted, s')) :
    s' = { boxes := s.boxes.erase key, cache := s.cache.erase key } := by
  cases h
  rfl

/-- Bytes are written over part of a box that reaches far enough. -/
theorem run_replace_eq_ok_iff {start : Nat} {u : Unit} :
    (replace key start bytes).run s = .ok (u, s') ↔
      ∃ content, s.content? key = some content ∧ start + bytes.length ≤ content.length ∧
        s' = s.written key
          (content.take start ++ bytes ++ content.drop (start + bytes.length)) := by
  rw [replace, run_get_bind_eq_ok_iff, run_lift_bind_eq_ok_iff]
  simp only [content_eq_ok_iff, run_lift_bind_eq_ok_iff, checkRange_eq_ok_iff]
  constructor
  · rintro ⟨content, hcontent, _, hfits, h⟩
    cases h
    exact ⟨content, hcontent, hfits, rfl⟩
  · rintro ⟨content, hcontent, hfits, rfl⟩
    exact ⟨content, hcontent, (), hfits, rfl⟩

/-- Bytes take the place of others in a box that reaches far enough, and the length is restored. -/
theorem run_splice_eq_ok_iff {start length : Nat} {u : Unit} :
    (splice key start length bytes).run s = .ok (u, s') ↔
      ∃ content, s.content? key = some content ∧ start + length ≤ content.length ∧
        s' = s.written key
          (fit content.length (content.take start ++ bytes ++ content.drop (start + length))) := by
  rw [splice, run_get_bind_eq_ok_iff, run_lift_bind_eq_ok_iff]
  simp only [content_eq_ok_iff, run_lift_bind_eq_ok_iff, checkRange_eq_ok_iff]
  constructor
  · rintro ⟨content, hcontent, _, hfits, h⟩
    cases h
    exact ⟨content, hcontent, hfits, rfl⟩
  · rintro ⟨content, hcontent, hfits, rfl⟩
    exact ⟨content, hcontent, (), hfits, rfl⟩

/-- A box is resized to a size that boxes can have. -/
theorem of_run_resize {size : Nat} {u : Unit} (h : (resize key size).run s = .ok (u, s')) :
    size ≤ Limits.box ∧ ∃ content, s' = s.written key (fit size content) := by
  obtain ⟨_, hsize, h⟩ := run_lift_bind_eq_ok_iff.mp h
  obtain ⟨content, -, h⟩ := run_lift_bind_eq_ok_iff.mp (run_get_bind_eq_ok_iff.mp h)
  cases h
  exact ⟨checkSize_eq_ok_iff.mp hsize, content, rfl⟩

end BoxStore

open BoxStore

/-! ## Operations -/

/-- An operation on a box store with any arguments: raw, on a typed box, or on a box map. -/
inductive BoxRequest : Type → Type where
  | create (key : Bytes) (size : Nat) : BoxRequest Bool
  | put (key bytes : Bytes) : BoxRequest Unit
  | delete (key : Bytes) : BoxRequest Bool
  | replace (key : Bytes) (start : Nat) (bytes : Bytes) : BoxRequest Unit
  | splice (key : Bytes) (start length : Nat) (bytes : Bytes) : BoxRequest Unit
  | resize (key : Bytes) (size : Nat) : BoxRequest Unit
  | decoded (key : Bytes) (type : Descriptor) : BoxRequest EncodedValue
  | createTyped (box : TypedBox) (size : Option Nat) : BoxRequest Bool
  | value (box : TypedBox) : BoxRequest EncodedValue
  | value? (box : TypedBox) : BoxRequest (Option EncodedValue)
  | store (box : TypedBox) (e : EncodedValue) : BoxRequest Unit
  | storeNative (box : TypedBox) (v : Value) : BoxRequest Unit
  | mapValue (map : BoxMap) (key : Value) : BoxRequest EncodedValue
  | mapValue? (map : BoxMap) (key : Value) : BoxRequest (Option EncodedValue)
  | mapStore (map : BoxMap) (key v : Value) : BoxRequest Unit
  | mapContains (map : BoxMap) (key : Value) : BoxRequest Bool
  | mapDelete (map : BoxMap) (key : Value) : BoxRequest Bool
  | mapLength (map : BoxMap) (key : Value) : BoxRequest Nat

namespace BoxRequest

variable {α : Type}

def run (request : BoxRequest α) (m : Type → Type) [BoxMonad m] : m α :=
  match request with
  | create key size => BoxStore.create key size m
  | put key bytes => BoxStore.put key bytes m
  | delete key => BoxStore.delete key m
  | replace key start bytes => BoxStore.replace key start bytes m
  | splice key start length bytes => BoxStore.splice key start length bytes m
  | resize key size => BoxStore.resize key size m
  | decoded key type => BoxStore.decoded key type m
  | createTyped box size => box.create size m
  | value box => box.value m
  | value? box => box.value? m
  | store box e => box.store e m
  | storeNative box v => box.storeNative v m
  | mapValue map key => map.value key m
  | mapValue? map key => map.value? key m
  | mapStore map key v => map.store key v m
  | mapContains map key => map.contains key m
  | mapDelete map key => map.delete key m
  | mapLength map key => map.length key m

/-- The result of an operation in place and the store that it leaves, also when it fails. -/
def execute (request : BoxRequest α) (s : BoxStore) : Result α × BoxStore :=
  (request.run (Action BoxStore)).run s

/-- The key of the box that an operation is about.  A key of a map may have no encoding. -/
def target : BoxRequest α → Result Bytes
  | create key _ | put key _ | delete key | replace key _ _ | splice key _ _ _ | resize key _
  | decoded key _ => .ok key
  | createTyped box _ | value box | value? box | store box _ | storeNative box _ => .ok box.key
  | mapValue map key | mapValue? map key | mapStore map key _ | mapContains map key
  | mapDelete map key | mapLength map key => map.boxKey key

/-- Whether an operation may change the length of an existing box: resizing, deleting, and storing
    a value of a dynamic type. -/
def resizes : BoxRequest α → Bool
  | resize .. | delete _ | mapDelete .. => true
  | store box _ | storeNative box _ => box.type.isDynamic
  | mapStore map _ _ => map.valueType.isDynamic
  | _ => false

/-! ## Kinds of operations -/

/-- Whether an operation may write to a box.  The others read. -/
def writes : BoxRequest α → Bool
  | decoded .. | value _ | value? _ | mapValue .. | mapValue? .. | mapContains .. | mapLength .. =>
      false
  | _ => true

/-- Whether an operation does not write to the box of a key. -/
def Spares (key : Bytes) (request : BoxRequest α) : Prop :=
  request.target = .ok key → request.writes = false

/-- Whether an operation deletes a box. -/
def deletes : BoxRequest α → Bool
  | delete _ | mapDelete .. => true
  | _ => false

/-- Whether an operation does not delete the box of a key. -/
def Retains (key : Bytes) (request : BoxRequest α) : Prop :=
  request.target = .ok key → request.deletes = false

/-- Whether what an operation stores, if it stores anything, was built without reference arrays, as
    a type that can be laid out. -/
def StoresBuilt : BoxRequest α → Prop
  | store _ e => e.Built
  | storeNative box _ => box.type.WellFormed
  | mapStore map _ _ => map.valueType.WellFormed
  | _ => True

end BoxRequest

/-! ## In place or taken back -/

namespace BoxStore

variable {α β : Type} {s s' : BoxStore}

/-- Where an action ends when a failure takes back what was changed. -/
def restored (r : Result (α × BoxStore)) (s : BoxStore) : Result α × BoxStore :=
  match r with
  | .ok (a, s') => (.ok a, s')
  | .error e => (.error e, s)

/-- Whether an action in place ends as one that takes back its changes. -/
def Agree (inPlace : Action BoxStore α) (action : BoxAction α) (s : BoxStore) : Prop :=
  inPlace.run s = restored (action.run s) s

section Agreement

variable {inPlace : Action BoxStore α} {action : BoxAction α}

theorem agree_pure (a : α) : Agree (pure a) (pure a) s := rfl

/-- A check changes nothing, so there is nothing to take back. -/
theorem agree_lift (r : Result α) : Agree (liftM r) (liftM r) s := by
  cases r <;> rfl

theorem agree_modify (f : BoxStore → BoxStore) : Agree (modify f) (modify f) s := rfl

/-- A look at the store changes nothing either. -/
theorem agree_get_bind {next : BoxStore → Action BoxStore β} {next' : BoxStore → BoxAction β}
    (h : Agree (next s) (next' s) s) : Agree (get >>= next) (get >>= next') s := h

/-- Behind a check the two ways agree when they do where it passes with a value. -/
theorem agree_lift_bind {r : Result α} {next : α → Action BoxStore β} {next' : α → BoxAction β}
    (h : ∀ a, r = .ok a → Agree (next a) (next' a) s) :
    Agree (liftM r >>= next) (liftM r >>= next') s := by
  cases r with
  | error e => rfl
  | ok a => exact h a rfl

/-- Behind a check the two ways agree when they do where it passes. -/
theorem agree_unless {refused : Prop} [Decidable refused] {e : Fault}
    (h : ¬refused → Agree inPlace action s) :
    Agree (if refused then (do throw e; inPlace) else inPlace)
      (if refused then (do throw e; action) else action) s := by
  split
  · rfl
  · exact h ‹_›

/-- In a sequence nothing is left to take back when the first step has changed nothing, or when
    what follows it cannot fail. -/
theorem Agree.bind {next : α → Action BoxStore β} {next' : α → BoxAction β}
    (h : Agree inPlace action s)
    (hnext : ∀ {a s'}, action.run s = .ok (a, s') →
      Agree (next a) (next' a) s' ∧ (s' = s ∨ ∃ result, (next' a).run s' = .ok result)) :
    Agree (inPlace >>= next) (action >>= next') s := by
  rw [Agree] at h
  rw [Agree, Action.run_bind, StateT.run_bind, h]
  cases hrun : action.run s with
  | error e => rfl
  | ok result =>
      obtain ⟨a, s'⟩ := result
      obtain ⟨hagree, hquiet⟩ := hnext hrun
      show (next a).run s' = restored ((next' a).run s') s
      rw [Agree] at hagree
      rw [hagree]
      -- a failure behind the first step leaves `s'` in place, which has to be `s`
      rcases hquiet with rfl | ⟨result, hok⟩
      · rfl
      · rw [hok]
        rfl

end Agreement

/-! ## Single operations in place -/

variable {key bytes content : Bytes} {start length size : Nat}

/-- A creation checks the size before it writes, and writes once. -/
theorem agree_create : Agree (create key size (Action BoxStore)) (create key size) s := by
  refine agree_lift_bind fun _ _ => agree_get_bind ?_
  cases s.content? key with
  | some existing => exact agree_unless fun _ => agree_pure false
  | none => rfl

/-- A box is written as a whole behind two checks. -/
theorem agree_put : Agree (put key bytes (Action BoxStore)) (put key bytes) s := by
  refine agree_lift_bind fun _ _ => agree_get_bind ?_
  cases s.content? key with
  | some existing => exact agree_unless fun _ => agree_modify _
  | none => rfl

/-- Part of a box is overwritten behind its lookup and the check of the range. -/
theorem agree_replace :
    Agree (replace key start bytes (Action BoxStore)) (replace key start bytes) s :=
  agree_get_bind (agree_lift_bind fun _ _ => agree_lift_bind fun _ _ => agree_modify _)

theorem agree_splice :
    Agree (splice key start length bytes (Action BoxStore)) (splice key start length bytes) s :=
  agree_get_bind (agree_lift_bind fun _ _ => agree_lift_bind fun _ _ => agree_modify _)

/-- A box is resized behind the check of the size and its lookup. -/
theorem agree_resize : Agree (resize key size (Action BoxStore)) (resize key size) s :=
  agree_lift_bind fun _ _ => agree_get_bind (agree_lift_bind fun _ _ => agree_modify _)

/-- A value is remembered when it has been decoded, and nothing fails behind that. -/
theorem agree_decoded {type : Descriptor} :
    Agree (decoded key type (Action BoxStore)) (decoded key type) s := by
  refine agree_get_bind ?_
  cases (s.cache.get? key).filter fun e => e.type = type with
  | some e => exact agree_pure e
  | none => exact agree_lift_bind fun _ _ => agree_lift_bind fun _ _ => rfl

/-- A box that may be missing is read behind the question whether it is there. -/
theorem agree_value? {box : TypedBox} : Agree (box.value? (Action BoxStore)) box.value? s := by
  refine agree_get_bind ?_
  cases s.has box.key with
  | false => exact agree_pure none
  | true => exact agree_decoded.bind fun _ => ⟨agree_pure _, .inr ⟨_, rfl⟩⟩

/-- What a dynamic value is put over has just been given its length. -/
theorem agree_writeBytes {box : TypedBox} :
    Agree (box.writeBytes bytes (Action BoxStore)) (box.writeBytes bytes) s := by
  refine agree_get_bind ?_
  cases s.content? box.key with
  | none => exact agree_put
  | some existing =>
      cases box.type.isDynamic with
      | false => exact agree_unless fun _ => agree_replace
      | true =>
          dsimp only
          rw [if_neg (by simp)]
          by_cases hlength : existing.length ≠ bytes.length
          · rw [if_pos hlength, if_pos hlength]
            -- the box has changed by now, so nothing behind may fail
            refine agree_resize.bind fun {_ s'} hresize => ⟨agree_put, .inr ?_⟩
            obtain ⟨hsize, content, rfl⟩ := of_run_resize hresize
            refine ⟨((), _), run_put_eq_ok_iff.mpr ⟨hsize, fun existing hexisting => ?_, rfl⟩⟩
            rw [content?_written, if_pos rfl] at hexisting
            cases hexisting
            exact length_fit ..
          · rw [if_neg hlength, if_neg hlength]
            exact agree_put

/-- A value that is written is remembered, and remembering cannot fail. -/
theorem agree_store {box : TypedBox} {e : EncodedValue} :
    Agree (box.store e (Action BoxStore)) (box.store e) s :=
  agree_unless fun _ => agree_writeBytes.bind fun _ => ⟨agree_modify _, .inr ⟨_, rfl⟩⟩

/-- A native value is encoded before anything is written. -/
theorem agree_storeNative {box : TypedBox} {v : Value} :
    Agree (box.storeNative v (Action BoxStore)) (box.storeNative v) s :=
  agree_lift_bind fun _ _ => agree_store

end BoxStore

namespace BoxRequest

variable {α : Type} {s s' : BoxStore} {key : Bytes}

/-- **A FAILURE IN PLACE HAS CHANGED NOTHING**: every operation ends in place as it does when its
    changes are taken back. -/
theorem execute_eq (request : BoxRequest α) (s : BoxStore) :
    request.execute s = restored ((request.run BoxAction).run s) s := by
  cases request with
  | create key size => exact agree_create
  | put key bytes => exact agree_put
  | delete key => rfl
  | replace key start bytes => exact agree_replace
  | splice key start length bytes => exact agree_splice
  | resize key size => exact agree_resize
  | decoded key type => exact agree_decoded
  | createTyped box size => exact agree_lift_bind fun _ _ => agree_create
  | value box => exact agree_decoded
  | value? box => exact agree_value?
  | store box e => exact agree_store
  | storeNative box v => exact agree_storeNative
  | mapValue map key => exact agree_lift_bind fun _ _ => agree_decoded
  | mapValue? map key => exact agree_lift_bind fun _ _ => agree_value?
  | mapStore map key v => exact agree_lift_bind fun _ _ => agree_storeNative
  | mapContains map key =>
      exact agree_lift_bind fun _ _ => agree_get_bind (agree_pure _)
  | mapDelete map key => exact agree_lift_bind fun _ _ => rfl
  | mapLength map key =>
      exact agree_lift_bind fun _ _ => agree_get_bind (agree_lift _)

/-- What succeeds in place is what succeeds when failures are taken back. -/
theorem execute_eq_ok_iff {request : BoxRequest α} {a : α} :
    request.execute s = (.ok a, s') ↔ (request.run BoxAction).run s = .ok (a, s') := by
  rw [execute_eq]
  cases (request.run BoxAction).run s with
  | error fault =>
      refine iff_of_false (fun h => ?_) (fun h => ?_)
      · cases h
      · cases h
  | ok result =>
      obtain ⟨b, after⟩ := result
      rw [restored, Prod.mk.injEq, Except.ok.injEq, Except.ok.injEq, Prod.mk.injEq]

end BoxRequest

/-! ## What operations lead to -/

namespace BoxStore

variable {P Q : ∀ α : Type, BoxRequest α → Prop} {s s' : BoxStore}

/-- Whether operations of a kind, successful or failing, lead from one store to another. -/
inductive Passes (P : ∀ α : Type, BoxRequest α → Prop) (s : BoxStore) : BoxStore → Prop where
  | refl : Passes P s s
  | step {α : Type} {s' : BoxStore} (request : BoxRequest α) (hP : P α request)
      (h : Passes P s s') : Passes P s (request.execute s').2

namespace Passes

/-- What every operation of a kind keeps is kept by all together, by induction on the operations. -/
theorem preserves {R : BoxStore → Prop} (h : Passes P s s') (hs : R s)
    (hstep : ∀ {α : Type} {s : BoxStore} (request : BoxRequest α), P α request → R s →
      R (request.execute s).2) : R s' := by
  induction h with
  | refl => exact hs
  | step request hP _ ih => exact hstep request hP ih

/-- Operations of one kind lead nowhere where those of a wider one do not. -/
theorem mono (h : Passes P s s') (hPQ : ∀ {α : Type} (request : BoxRequest α), P α request →
    Q α request) : Passes Q s s' :=
  h.preserves .refl fun request hP ih => ih.step request (hPQ request hP)

end Passes

/-- The stores that operations lead to from the empty one when what they store was built without
    reference arrays. -/
def Reachable (s : BoxStore) : Prop := Passes (fun _ request => request.StoresBuilt) {} s

/-- The stores that operations with any arguments lead to from the empty one, in place and whether
    or not they fail. -/
def InUse (s : BoxStore) : Prop := Passes (fun _ _ => True) {} s

/-- The stores that such operations lead to are among them. -/
theorem Reachable.inUse (h : Reachable s) : InUse s := h.mono fun _ _ => trivial

end BoxStore

end AvmSandbox
