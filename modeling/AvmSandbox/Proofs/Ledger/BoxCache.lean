import AvmSandbox.Proofs.Ledger.BoxRequests

/-! # The box cache — what is remembered is what the boxes hold

    A box store remembers values that were decoded from boxes or stored in them.
    Raw writes drop what is remembered of a box.  A typed write remembers a value
    that nobody has decoded from the box; that it could have been is the round
    trip of the codec, and for a static type, which may take up less than the box,
    that its encodings all have one length.

    * `Coherent`: what is remembered of a box decodes and is what the box holds;
    * `Coherent.written`, `Coherent.remembered`: what keeps it so;
    * `coherent_of_run`, `Reachable.coherent`: operations, and the stores that they lead to;
    * `decoded_of_reachable`: reading through the cache. -/

namespace AvmSandbox

namespace BoxStore

open Descriptor

variable {α β : Type} {s s' s'' : BoxStore} {key bytes content : Bytes} {type : Descriptor}
  {e : EncodedValue} {v : Value}

/-! ## Occupied bytes -/

/-- An encoding takes up itself. -/
theorem occupied_self (hwf : type.WellFormed) (h : type.decode bytes = .ok v) :
    occupied type bytes = bytes := by
  rw [occupied]
  cases hn : type.fixedLength? with
  | none => rfl
  | some n =>
      obtain rfl := length_of_decode hwf h hn
      dsimp only
      rw [if_pos (Nat.le_refl _), List.take_length]

/-- An encoding of a static type takes up itself also when other bytes follow it in a box. -/
theorem occupied_append {rest : Bytes} (hwf : type.WellFormed) (hstatic : type.isDynamic = false)
    (h : type.decode bytes = .ok v) (hlength : (bytes ++ rest).length ≤ Limits.box) :
    occupied type (bytes ++ rest) = bytes := by
  rw [List.length_append] at hlength
  rw [occupied]
  cases hn : type.fixedLength? with
  | none =>
      have hle := length_le_of_decode hwf hstatic h hn
      have hbox : Limits.box < Limits.length := by decide
      omega
  | some n =>
      obtain rfl := length_of_decode hwf h hn
      dsimp only
      rw [if_pos (by rw [List.length_append]; omega), List.take_left]

/-! ## Coherence -/

/-- Whether boxes are bounded, and what is remembered of a box decodes and is what the box
    holds. -/
structure Coherent (s : BoxStore) : Prop where
  bounded : ∀ {key content}, s.content? key = some content → content.length ≤ Limits.box
  cached : ∀ {key e}, s.cache.get? key = some e →
    ∃ content, s.content? key = some content ∧ occupied e.type content = e.bytes ∧
      ∃ v, e.type.decode e.bytes = .ok v

theorem coherent_empty : Coherent {} := ⟨fun h => (nomatch h), fun h => (nomatch h)⟩

/-- A raw write forgets. -/
theorem Coherent.written (h : s.Coherent) (hlength : bytes.length ≤ Limits.box) :
    (s.written key bytes).Coherent := by
  refine ⟨fun {other content} hcontent => ?_, fun {other e} he => ?_⟩
  · rw [content?_written] at hcontent
    split at hcontent
    · cases hcontent
      exact hlength
    · exact h.bounded hcontent
  · rw [BoxStore.written, Table.get?_erase] at he
    split at he
    · cases he
    · next hne =>
        rw [content?_written, if_neg hne]
        exact h.cached he

/-- A box deleted with what is remembered of it leaves nothing stale. -/
theorem Coherent.deleted (h : s.Coherent) (key : Bytes) :
    Coherent { boxes := s.boxes.erase key, cache := s.cache.erase key } := by
  refine ⟨fun {other content} hcontent => ?_, fun {other e} he => ?_⟩
  · rw [content?, Table.get?_erase] at hcontent
    split at hcontent
    · cases hcontent
    · exact h.bounded hcontent
  · rw [Table.get?_erase] at he
    split at he
    · cases he
    · next hne =>
        rw [content?, Table.get?_erase, if_neg hne]
        exact h.cached he

/-- A value may be remembered of a box that it could have been decoded from. -/
theorem Coherent.remembered (h : s.Coherent) (hcontent : s.content? key = some content)
    (hoccupied : occupied e.type content = e.bytes) (hdecodes : e.type.decode e.bytes = .ok v) :
    Coherent { s with cache := s.cache.insert key e } := by
  refine ⟨h.bounded, fun {other e'} he => ?_⟩
  rw [Table.get?_insert] at he
  split at he
  · next heq =>
      cases he
      rw [heq]
      exact ⟨content, hcontent, hoccupied, v, hdecodes⟩
  · exact h.cached he

/-! ## Reading -/

/-- What a box holds as a type, whatever is remembered of it. -/
def decodedAnew (s : BoxStore) (key : Bytes) (type : Descriptor) : Result EncodedValue := do
  EncodedValue.ofBytes type (occupied type (← s.content key))

/-- Reading past the cache succeeds on a box whose occupied bytes decode. -/
theorem decodedAnew_eq_ok_iff :
    s.decodedAnew key type = .ok e ↔
      ∃ content, s.content? key = some content ∧ e.type = type ∧
        e.bytes = occupied type content ∧ type.decode (occupied type content) = .ok e.native := by
  rw [decodedAnew, bind_eq_ok_iff]
  simp only [content_eq_ok_iff, EncodedValue.ofBytes_eq_ok_iff]

/-- A box remembered at the type asked for is answered from the cache. -/
theorem run_decoded_of_remembered
    (h : (s.cache.get? key).filter (fun e => e.type = type) = some e) :
    (decoded key type).run s = .ok (e, s) := by
  simp only [decoded, StateT.run_bind, StateT.run_get, pure_bind, h]
  rfl

/-- A box remembered at no such type is decoded and remembered. -/
theorem run_decoded_of_forgotten
    (h : (s.cache.get? key).filter (fun e => e.type = type) = none) :
    (decoded key type).run s =
      (s.decodedAnew key type).map fun e => (e, { s with cache := s.cache.insert key e }) := by
  rw [decodedAnew]
  simp only [decoded, StateT.run_bind, StateT.run_get, pure_bind, h]
  cases s.content key with
  | error fault => rfl
  | ok content =>
      have hremember : ∀ r : Result EncodedValue,
          (do let e ← liftM r; set { s with cache := s.cache.insert key e }; return e :
            BoxAction EncodedValue).run s =
          r.map fun e => (e, { s with cache := s.cache.insert key e }) := by
        rintro (_ | _) <;> rfl
      exact hremember _

/-- **THE CACHE IS TRANSPARENT** over a coherent store: a value that is remembered is of the type
    and has the bytes that the box decodes to, any other is decoded and remembered. -/
theorem run_decoded (h : s.Coherent) (key : Bytes) (type : Descriptor) :
    match (decoded key type).run s with
    | .ok (e, s') => s'.boxes = s.boxes ∧ s'.Coherent ∧
        ∃ e', s.decodedAnew key type = .ok e' ∧ e.type = e'.type ∧ e.bytes = e'.bytes
    | .error fault => s.decodedAnew key type = .error fault := by
  cases hremembered : (s.cache.get? key).filter fun e => e.type = type with
  | some e =>
      rw [run_decoded_of_remembered hremembered]
      rw [Option.filter_eq_some_iff, decide_eq_true_iff] at hremembered
      obtain ⟨he, rfl⟩ := hremembered
      obtain ⟨content, hcontent, hoccupied, v, hv⟩ := h.cached he
      refine ⟨rfl, h, ⟨e.type, e.bytes, v⟩, decodedAnew_eq_ok_iff.mpr ?_, rfl, rfl⟩
      exact ⟨content, hcontent, rfl, hoccupied.symm, hoccupied.symm ▸ hv⟩
  | none =>
      rw [run_decoded_of_forgotten hremembered]
      cases hanew : s.decodedAnew key type with
      | error fault => rfl
      | ok e =>
          obtain ⟨content, hcontent, rfl, hbytes, hdecodes⟩ := decodedAnew_eq_ok_iff.mp hanew
          exact ⟨rfl, h.remembered hcontent hbytes.symm (hbytes ▸ hdecodes), e, rfl, rfl, rfl⟩

theorem coherent_of_run_decoded (h : s.Coherent) (hrun : (decoded key type).run s = .ok (e, s')) :
    s'.Coherent := by
  have hdecoded := run_decoded h key type
  rw [hrun] at hdecoded
  exact hdecoded.2.1

end BoxStore

/-! ## Typed boxes -/

namespace TypedBox

open BoxStore

variable {s s' : BoxStore} {box : TypedBox} {bytes : Bytes} {v : Value} {e : EncodedValue}

/-- **A TYPED WRITE CAN BE READ BACK**: the box then holds the bytes, at its start. -/
theorem of_run_writeBytes {u : Unit} (h : s.Coherent) (hwf : box.type.WellFormed)
    (hdecodes : box.type.decode bytes = .ok v) (hrun : (box.writeBytes bytes).run s = .ok (u, s')) :
    s'.Coherent ∧
      ∃ content, s'.content? box.key = some content ∧ occupied box.type content = bytes := by
  -- whatever the box held before, a box that holds the bytes alone is as it should be
  have hput : ∀ {s : BoxStore}, s.Coherent → (put box.key bytes).run s = .ok (u, s') →
      s'.Coherent ∧
        ∃ content, s'.content? box.key = some content ∧ occupied box.type content = bytes := by
    intro s h hrun
    obtain ⟨hlength, -, rfl⟩ := run_put_eq_ok_iff.mp hrun
    exact ⟨h.written hlength, bytes, by rw [content?_written, if_pos rfl],
      occupied_self hwf hdecodes⟩
  rw [writeBytes] at hrun
  have hrun := run_get_bind_eq_ok_iff.mp hrun
  split at hrun
  · exact hput h hrun
  · next existing hexisting =>
      split at hrun
      · next hstatic =>
          split at hrun
          · cases hrun
          · obtain ⟨content, hcontent, hfits, rfl⟩ := run_replace_eq_ok_iff.mp hrun
            have hlength : (bytes ++ content.drop bytes.length).length ≤ Limits.box := by
              have hbounded := h.bounded hcontent
              rw [List.length_append, List.length_drop]
              omega
            rw [List.take_zero, List.nil_append, Nat.zero_add]
            rw [Bool.not_eq_true'] at hstatic
            exact ⟨h.written hlength, _, by rw [content?_written, if_pos rfl],
              occupied_append hwf hstatic hdecodes hlength⟩
      · split at hrun
        · obtain ⟨_, middle, hresize, hrun⟩ := run_bind_eq_ok_iff.mp hrun
          obtain ⟨hsize, content, rfl⟩ := of_run_resize hresize
          exact hput (h.written (by rwa [length_fit])) hrun
        · exact hput h hrun

/-- A sound value can be stored, for the cache then holds what the box decodes to. -/
theorem coherent_of_run_store {u : Unit} (h : s.Coherent) (he : e.Sound)
    (hrun : (box.store e).run s = .ok (u, s')) : s'.Coherent := by
  rw [store] at hrun
  split at hrun
  · cases hrun
  · next htype =>
      rw [ne_eq, Decidable.not_not] at htype
      obtain ⟨_, middle, hwrite, hrun⟩ := run_bind_eq_ok_iff.mp hrun
      obtain ⟨hwf, v, hv⟩ := he
      obtain ⟨hcoherent, content, hcontent, hoccupied⟩ :=
        of_run_writeBytes h (htype ▸ hwf) (htype ▸ hv) hwrite
      cases hrun
      exact hcoherent.remembered hcontent (htype.symm ▸ hoccupied) hv

theorem coherent_of_run_storeNative {u : Unit} (h : s.Coherent) (hwf : box.type.WellFormed)
    (hrun : (box.storeNative v).run s = .ok (u, s')) : s'.Coherent := by
  obtain ⟨e, he, hrun⟩ := run_lift_bind_eq_ok_iff.mp hrun
  exact coherent_of_run_store h (EncodedValue.sound_of_encodeUpTo hwf he) hrun

/-- An optional reading reads only a box that is there. -/
theorem coherent_of_run_value? {found : Option EncodedValue} (h : s.Coherent)
    (hrun : box.value?.run s = .ok (found, s')) : s'.Coherent := by
  rw [value?] at hrun
  have hrun := run_get_bind_eq_ok_iff.mp hrun
  split at hrun
  · obtain ⟨e, middle, hvalue, hrun⟩ := run_bind_eq_ok_iff.mp hrun
    cases hrun
    exact coherent_of_run_decoded h hvalue
  · cases hrun
    exact h

end TypedBox

/-! ## Stores in use -/

namespace BoxRequest

open BoxStore

variable {α : Type} {s s' : BoxStore}

/-- A new box is filled with zeros and nothing is remembered of it. -/
theorem coherent_of_run_create {key : Bytes} {size : Nat} {created : Bool} (h : s.Coherent)
    (hrun : (BoxStore.create key size).run s = .ok (created, s')) : s'.Coherent := by
  obtain rfl | ⟨-, hsize, rfl⟩ := of_run_create hrun
  · exact h
  · exact h.written (by rwa [List.length_replicate])

/-- **EVERY OPERATION KEEPS THE STORE COHERENT.** -/
theorem coherent_of_run (request : BoxRequest α) {a : α} (hstores : request.StoresBuilt)
    (h : s.Coherent) (hrun : (request.run BoxAction).run s = .ok (a, s')) : s'.Coherent := by
  cases request with
  | create key size => exact coherent_of_run_create h hrun
  | put key bytes =>
      obtain ⟨hlength, -, rfl⟩ := run_put_eq_ok_iff.mp hrun
      exact h.written hlength
  | delete key =>
      obtain rfl := of_run_delete hrun
      exact h.deleted key
  | replace key start bytes =>
      obtain ⟨content, hcontent, hfits, rfl⟩ := run_replace_eq_ok_iff.mp hrun
      -- what is written has the length of the box, which was within the limit
      have hbounded := h.bounded hcontent
      refine h.written ?_
      rw [List.length_append, List.length_append, List.length_take, List.length_drop]
      omega
  | splice key start length bytes =>
      obtain ⟨content, hcontent, -, rfl⟩ := run_splice_eq_ok_iff.mp hrun
      refine h.written ?_
      rw [length_fit]
      exact h.bounded hcontent
  | resize key size =>
      obtain ⟨hsize, content, rfl⟩ := of_run_resize hrun
      exact h.written (by rwa [length_fit])
  | decoded key type => exact coherent_of_run_decoded h hrun
  | createTyped box size =>
      obtain ⟨size, -, hrun⟩ := run_lift_bind_eq_ok_iff.mp hrun
      exact coherent_of_run_create h hrun
  | value box => exact coherent_of_run_decoded h hrun
  | value? box => exact TypedBox.coherent_of_run_value? h hrun
  | store box e => exact TypedBox.coherent_of_run_store h hstores.sound hrun
  | storeNative box v => exact TypedBox.coherent_of_run_storeNative h hstores hrun
  | mapValue map key =>
      obtain ⟨box, -, hrun⟩ := run_lift_bind_eq_ok_iff.mp hrun
      exact coherent_of_run_decoded h hrun
  | mapValue? map key =>
      obtain ⟨box, -, hrun⟩ := run_lift_bind_eq_ok_iff.mp hrun
      exact TypedBox.coherent_of_run_value? h hrun
  -- a map writes as the typed box of its entry does
  | mapStore map key v =>
      obtain ⟨box, hbox, hrun⟩ := run_lift_bind_eq_ok_iff.mp hrun
      obtain ⟨boxKey, -, hbox⟩ := bind_eq_ok_iff.mp hbox
      obtain rfl := pure_eq_ok_iff.mp hbox
      have hwf : map.valueType.WellFormed := hstores
      exact TypedBox.coherent_of_run_storeNative h hwf hrun
  | mapContains map key =>
      obtain ⟨boxKey, -, hrun⟩ := run_lift_bind_eq_ok_iff.mp hrun
      cases hrun
      exact h
  | mapDelete map key =>
      obtain ⟨boxKey, -, hrun⟩ := run_lift_bind_eq_ok_iff.mp hrun
      obtain rfl := of_run_delete hrun
      exact h.deleted boxKey
  | mapLength map key =>
      obtain ⟨boxKey, -, hrun⟩ := run_lift_bind_eq_ok_iff.mp hrun
      obtain ⟨-, rfl⟩ := run_lift_eq_ok_iff.mp (run_get_bind_eq_ok_iff.mp hrun)
      exact h

/-- Also when it fails. -/
theorem coherent_execute (request : BoxRequest α) (hstores : request.StoresBuilt)
    (h : s.Coherent) : (request.execute s).2.Coherent := by
  rw [execute_eq]
  cases hrun : (request.run BoxAction).run s with
  | error fault => exact h
  | ok result => exact request.coherent_of_run hstores h hrun

end BoxRequest

namespace BoxStore

variable {s : BoxStore}

/-- The store behind an action, which a failure leaves as it was. -/
def after {α : Type} (action : BoxAction α) (s : BoxStore) : BoxStore :=
  match action.run s with
  | .ok (_, s') => s'
  | .error _ => s

/-- Every store in use is coherent. -/
theorem Reachable.coherent (h : Reachable s) : s.Coherent :=
  h.preserves coherent_empty fun request hstores ih => request.coherent_execute hstores ih

/-- **THE BOX CACHE IS TRANSPARENT.**  Whatever was done with a store, a box reads as a type
    exactly when what the box holds decodes as it, and then with that type and those bytes; and no
    reading changes what a box holds. -/
theorem decoded_of_reachable (h : Reachable s) (key : Bytes) (type : Descriptor) :
    (match (decoded key type).run s with
      | .ok (e, _) =>
          ∃ e', s.decodedAnew key type = .ok e' ∧ e.type = e'.type ∧ e.bytes = e'.bytes
      | .error fault => s.decodedAnew key type = .error fault) ∧
      (after (decoded key type) s).boxes = s.boxes := by
  have hdecoded := run_decoded h.coherent key type
  rw [after]
  cases hrun : (decoded key type).run s with
  | error fault =>
      rw [hrun] at hdecoded
      exact ⟨hdecoded, rfl⟩
  | ok result =>
      rw [hrun] at hdecoded
      exact ⟨hdecoded.2.2, hdecoded.1⟩

/-- Stores a one-byte integer in a box. -/
def storeShort : BoxRequest Unit := .storeNative ⟨[1], .uint 8⟩ (.uint 7)

/-- A box of two bytes with a one-byte integer at its start. -/
def oversized : BoxStore := (storeShort.execute (BoxRequest.execute (.create [1] 2) {}).2).2

theorem reachable_oversized : Reachable oversized :=
  .step storeShort (Descriptor.wellFormed_leaf rfl ⟨by decide, by decide, rfl⟩)
    (.step (.create [1] 2) trivial .refl)

/-- The integer is remembered, and the box still reads as two bytes. -/
theorem decoded_of_reachable_oversized :
    (∃ e', oversized.decodedAnew [1] (.uint 8) = .ok e' ∧ e'.bytes = [7]) ∧
      (∃ e', oversized.decodedAnew [1] (.uint 16) = .ok e' ∧ e'.bytes = [7, 0]) ∧
      (after (decoded [1] (.uint 16)) oversized).boxes = oversized.boxes := by
  have hremembered : (decoded [1] (.uint 8)).run oversized
      = .ok (⟨.uint 8, [7], .uint 7⟩, oversized) := rfl
  have hforgotten : (decoded [1] (.uint 16)).run oversized
      = .ok (⟨.uint 16, [7, 0], .uint 1792⟩, after (decoded [1] (.uint 16)) oversized) := rfl
  obtain ⟨hshort, -⟩ := decoded_of_reachable reachable_oversized [1] (.uint 8)
  obtain ⟨hlong, hboxes⟩ := decoded_of_reachable reachable_oversized [1] (.uint 16)
  rw [hremembered] at hshort
  rw [hforgotten] at hlong
  obtain ⟨e, he, -, hbytes⟩ := hshort
  obtain ⟨e', he', -, hbytes'⟩ := hlong
  exact ⟨⟨e, he, hbytes.symm⟩, ⟨e', he', hbytes'.symm⟩, hboxes⟩

end BoxStore

end AvmSandbox
