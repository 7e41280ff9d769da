import AvmSandbox.Proofs.Ledger.BoxCache

/-! # Box writes — a bounded map with fixed lengths

    A box is bounded, its length is fixed but for the operations that are there to
    change it, and an operation touches no box but its own.  What a run that
    succeeds may do to the boxes is said once, and that is all that an operation
    can do, because a failure changes nothing.

    * `Edits`, `edits_of_run`: what a run that succeeds may do to the boxes;
    * `Spliced`, `spliced_fit`: bytes put inside a box;
    * `bounded_fixed_of_inUse`: all of it over stores in use. -/

namespace AvmSandbox

open BoxStore

/-! ## What a run may do to the boxes -/

namespace BoxStore

variable {s s' s'' : BoxStore} {key bytes content : Bytes} {start length size : Nat}
  {resizes : Bool}

/-- Whether no box is too large. -/
def Bounded (s : BoxStore) : Prop :=
  ∀ key content, s.content? key = some content → content.length ≤ Limits.box

theorem bounded_empty : Bounded {} := by
  intro key content h
  cases h

/-- Whether one store comes from another by changing at most the box of a key and what is
    remembered of it.  The box keeps its length unless it may be resized. -/
structure Edits (s s' : BoxStore) (key : Bytes) (resizes : Bool) : Prop where
  others : ∀ {other}, other ≠ key → s'.content? other = s.content? other
  othersCached : ∀ {other}, other ≠ key → s'.cache.get? other = s.cache.get? other
  lengths : resizes = false → ∀ {content}, s.content? key = some content →
    ∃ content', s'.content? key = some content' ∧ content'.length = content.length
  bounded : s.Bounded → s'.Bounded

theorem edits_refl : Edits s s key resizes :=
  ⟨fun _ => rfl, fun _ => rfl, fun _ content hcontent => ⟨content, hcontent, rfl⟩, id⟩

/-- Remembering a value changes no box. -/
theorem edits_remembered (e : EncodedValue) :
    Edits s { s with cache := s.cache.insert key e } key resizes := by
  refine ⟨fun _ => rfl, ?_, fun _ content hcontent => ⟨content, hcontent, rfl⟩, id⟩
  intro other hne
  rw [Table.get?_insert, if_neg hne]

/-- Two edits of the same box are one edit of it. -/
theorem Edits.trans (h : Edits s s' key resizes) (h' : Edits s' s'' key resizes) :
    Edits s s'' key resizes := by
  refine ⟨?_, ?_, ?_, ?_⟩
  · intro other hne
    rw [h'.others hne, h.others hne]
  · intro other hne
    rw [h'.othersCached hne, h.othersCached hne]
  · intro hkeeps content hcontent
    obtain ⟨middle, hmiddle, hlength⟩ := h.lengths hkeeps hcontent
    obtain ⟨content', hcontent', hlength'⟩ := h'.lengths hkeeps hmiddle
    exact ⟨content', hcontent', hlength'.trans hlength⟩
  · intro hbounded
    exact h'.bounded (h.bounded hbounded)

/-- Writing a box edits it when the bytes are not too many, and as many as before unless it may be
    resized. -/
theorem edits_written (hsize : s.Bounded → bytes.length ≤ Limits.box)
    (hlength : resizes = false → ∀ {content}, s.content? key = some content →
      content.length = bytes.length) :
    Edits s (s.written key bytes) key resizes := by
  refine ⟨?_, ?_, ?_, ?_⟩
  · intro other hne
    rw [content?_written, if_neg hne]
  · intro other hne
    rw [written, Table.get?_erase, if_neg hne]
  · intro hkeeps content hcontent
    rw [content?_written, if_pos rfl]
    exact ⟨bytes, rfl, (hlength hkeeps hcontent).symm⟩
  · intro hbounded other content hother
    rw [content?_written] at hother
    split at hother
    · cases hother
      exact hsize hbounded
    · exact hbounded other content hother

/-- A box that is deleted is resized away: it need not keep its length. -/
theorem edits_deleted :
    Edits s { boxes := s.boxes.erase key, cache := s.cache.erase key } key true := by
  refine ⟨?_, ?_, ?_, ?_⟩
  · intro other hne
    rw [content?, Table.get?_erase, if_neg hne, content?]
  · intro other hne
    rw [Table.get?_erase, if_neg hne]
  · intro hkeeps
    cases hkeeps
  · intro hbounded other content hother
    rw [content?, Table.get?_erase] at hother
    split at hother
    · cases hother
    · exact hbounded other content hother

/-- A created box is within the limit, and one that was there is left alone. -/
theorem edits_of_run_create {created : Bool} (h : (create key size).run s = .ok (created, s')) :
    Edits s s' key resizes := by
  obtain rfl | ⟨habsent, hsize, rfl⟩ := of_run_create h
  · exact edits_refl
  · refine edits_written ?_ ?_
    · intro _
      rwa [List.length_replicate]
    · intro _ content hcontent
      rw [habsent] at hcontent
      cases hcontent

/-- A put writes within the limit, and over a box only with as many bytes. -/
theorem edits_of_run_put {u : Unit} (h : (put key bytes).run s = .ok (u, s')) :
    Edits s s' key resizes := by
  obtain ⟨hsize, hlength, rfl⟩ := run_put_eq_ok_iff.mp h
  exact edits_written (fun _ => hsize) fun _ content => hlength content

/-- Bytes as many as those of an existing box edit it. -/
theorem edits_written_over (hcontent : s.content? key = some content)
    (hlength : bytes.length = content.length) : Edits s (s.written key bytes) key resizes := by
  refine edits_written ?_ ?_
  · intro hbounded
    rw [hlength]
    exact hbounded key content hcontent
  · intro _ existing hexisting
    cases hcontent.symm.trans hexisting
    exact hlength.symm

/-- Overwriting inside a box keeps its length. -/
theorem length_overwritten (hfits : start + bytes.length ≤ content.length) :
    (content.take start ++ bytes ++ content.drop (start + bytes.length)).length
      = content.length := by
  rw [List.length_append, List.length_append, List.length_take, List.length_drop]
  omega

/-- A replacement lies within the box and keeps its length. -/
theorem edits_of_run_replace {u : Unit} (h : (replace key start bytes).run s = .ok (u, s')) :
    Edits s s' key resizes := by
  obtain ⟨content, hcontent, hfits, rfl⟩ := run_replace_eq_ok_iff.mp h
  exact edits_written_over hcontent (length_overwritten hfits)

/-- A splice is cut or filled up to the length of the box. -/
theorem edits_of_run_splice {u : Unit} (h : (splice key start length bytes).run s = .ok (u, s')) :
    Edits s s' key resizes := by
  obtain ⟨content, hcontent, -, rfl⟩ := run_splice_eq_ok_iff.mp h
  exact edits_written_over hcontent (length_fit ..)

theorem edits_of_run_resize {u : Unit} (h : (resize key size).run s = .ok (u, s')) :
    Edits s s' key true := by
  obtain ⟨hsize, content, rfl⟩ := of_run_resize h
  refine edits_written ?_ ?_
  · intro _
    rwa [length_fit]
  · intro hkeeps
    cases hkeeps

/-- Reading through the cache changes nothing, or a value that was decoded is remembered. -/
theorem of_run_decoded {type : Descriptor} {e : EncodedValue}
    (h : (decoded key type).run s = .ok (e, s')) :
    s' = s ∨ s.decodedAnew key type = .ok e ∧ s' = { s with cache := s.cache.insert key e } := by
  cases hremembered : (s.cache.get? key).filter fun e => e.type = type with
  | some e' =>
      rw [run_decoded_of_remembered hremembered] at h
      cases h
      exact .inl rfl
  | none =>
      rw [run_decoded_of_forgotten hremembered] at h
      cases hanew : s.decodedAnew key type with
      | error fault =>
          rw [hanew] at h
          cases h
      | ok e' =>
          rw [hanew] at h
          cases h
          exact .inr ⟨rfl, rfl⟩

/-- Reading a box edits the cache at most. -/
theorem edits_of_run_decoded {type : Descriptor} {e : EncodedValue}
    (h : (decoded key type).run s = .ok (e, s')) : Edits s s' key resizes := by
  obtain rfl | ⟨-, rfl⟩ := of_run_decoded h
  · exact edits_refl
  · exact edits_remembered e

theorem edits_of_run_value? {box : TypedBox} {found : Option EncodedValue}
    (h : box.value?.run s = .ok (found, s')) : Edits s s' box.key resizes := by
  have h := run_get_bind_eq_ok_iff.mp h
  split at h
  · obtain ⟨e, middle, hvalue, h⟩ := run_bind_eq_ok_iff.mp h
    cases h
    exact edits_of_run_decoded hvalue
  · cases h
    exact edits_refl

/-- Only a value of a dynamic type may resize the box that it is written to. -/
theorem edits_of_run_writeBytes {box : TypedBox} {u : Unit}
    (h : (box.writeBytes bytes).run s = .ok (u, s')) :
    Edits s s' box.key box.type.isDynamic := by
  have h := run_get_bind_eq_ok_iff.mp h
  split at h
  · exact edits_of_run_put h
  · split at h
    · split at h
      · cases h
      · exact edits_of_run_replace h
    · next hdynamic =>
        rw [Bool.not_eq_true, Bool.not_eq_false'] at hdynamic
        rw [hdynamic]
        -- here the length may change, and only here does it
        split at h
        · obtain ⟨_, middle, hresize, hput⟩ := run_bind_eq_ok_iff.mp h
          exact (edits_of_run_resize hresize).trans (edits_of_run_put hput)
        · exact edits_of_run_put h

/-- An encoded value stored in a box of a static type keeps the length of the box. -/
theorem edits_of_run_store {box : TypedBox} {e : EncodedValue} {u : Unit}
    (h : (box.store e).run s = .ok (u, s')) : Edits s s' box.key box.type.isDynamic := by
  rw [TypedBox.store] at h
  split at h
  · cases h
  · obtain ⟨_, middle, hwrite, h⟩ := run_bind_eq_ok_iff.mp h
    cases h
    exact (edits_of_run_writeBytes hwrite).trans (edits_remembered e)

theorem edits_of_run_storeNative {box : TypedBox} {v : Value} {u : Unit}
    (h : (box.storeNative v).run s = .ok (u, s')) : Edits s s' box.key box.type.isDynamic := by
  obtain ⟨e, -, h⟩ := run_lift_bind_eq_ok_iff.mp h
  exact edits_of_run_store h

end BoxStore

/-- The box of an entry of a map. -/
theorem BoxMap.entry_eq_ok_iff {map : BoxMap} {k : Value} {box : TypedBox} :
    map.entry k = .ok box ↔ map.boxKey k = .ok box.key ∧ box.type = map.valueType := by
  rw [BoxMap.entry, bind_eq_ok_iff]
  constructor
  · rintro ⟨boxKey, hkey, h⟩
    cases h
    exact ⟨hkey, rfl⟩
  · rintro ⟨hkey, htype⟩
    refine ⟨box.key, hkey, ?_⟩
    rw [← htype]
    rfl

namespace BoxRequest

variable {α : Type} {s s' : BoxStore} {key : Bytes}

/-- **AN OPERATION EDITS ITS OWN BOX** when it succeeds. -/
theorem edits_of_run (request : BoxRequest α) {a : α}
    (h : (request.run BoxAction).run s = .ok (a, s')) :
    ∃ key, request.target = .ok key ∧ Edits s s' key request.resizes := by
  cases request with
  | create key size => exact ⟨key, rfl, edits_of_run_create h⟩
  | put key bytes => exact ⟨key, rfl, edits_of_run_put h⟩
  | delete key =>
      obtain rfl := of_run_delete h
      exact ⟨key, rfl, edits_deleted⟩
  | replace key start bytes => exact ⟨key, rfl, edits_of_run_replace h⟩
  | splice key start length bytes => exact ⟨key, rfl, edits_of_run_splice h⟩
  | resize key size => exact ⟨key, rfl, edits_of_run_resize h⟩
  | decoded key type => exact ⟨key, rfl, edits_of_run_decoded h⟩
  | createTyped box size =>
      obtain ⟨size, -, h⟩ := run_lift_bind_eq_ok_iff.mp h
      exact ⟨box.key, rfl, edits_of_run_create h⟩
  | value box => exact ⟨box.key, rfl, edits_of_run_decoded h⟩
  | value? box => exact ⟨box.key, rfl, edits_of_run_value? h⟩
  | store box e => exact ⟨box.key, rfl, edits_of_run_store h⟩
  | storeNative box v => exact ⟨box.key, rfl, edits_of_run_storeNative h⟩
  -- a request to a map aims at the box of its entry
  | mapValue map key =>
      obtain ⟨box, hbox, h⟩ := run_lift_bind_eq_ok_iff.mp h
      exact ⟨box.key, (BoxMap.entry_eq_ok_iff.mp hbox).1, edits_of_run_decoded h⟩
  | mapValue? map key =>
      obtain ⟨box, hbox, h⟩ := run_lift_bind_eq_ok_iff.mp h
      exact ⟨box.key, (BoxMap.entry_eq_ok_iff.mp hbox).1, edits_of_run_value? h⟩
  | mapStore map key v =>
      obtain ⟨box, hbox, h⟩ := run_lift_bind_eq_ok_iff.mp h
      obtain ⟨hkey, htype⟩ := BoxMap.entry_eq_ok_iff.mp hbox
      refine ⟨box.key, hkey, ?_⟩
      rw [resizes, ← htype]
      exact edits_of_run_storeNative h
  | mapContains map key =>
      obtain ⟨boxKey, hkey, h⟩ := run_lift_bind_eq_ok_iff.mp h
      cases h
      exact ⟨boxKey, hkey, edits_refl⟩
  | mapDelete map key =>
      obtain ⟨boxKey, hkey, h⟩ := run_lift_bind_eq_ok_iff.mp h
      obtain rfl := of_run_delete h
      exact ⟨boxKey, hkey, edits_deleted⟩
  | mapLength map key =>
      obtain ⟨boxKey, hkey, h⟩ := run_lift_bind_eq_ok_iff.mp h
      obtain ⟨-, rfl⟩ := run_lift_eq_ok_iff.mp (run_get_bind_eq_ok_iff.mp h)
      exact ⟨boxKey, hkey, edits_refl⟩

/-- An operation fails in place and leaves the store as it was, or succeeds and edits its box. -/
theorem execute_cases (request : BoxRequest α) (s : BoxStore) :
    (∃ fault, request.execute s = (.error fault, s)) ∨
      ∃ a s' key, request.execute s = (.ok a, s') ∧ request.target = .ok key ∧
        Edits s s' key request.resizes := by
  rw [execute_eq]
  cases hrun : (request.run BoxAction).run s with
  | error fault => exact .inl ⟨fault, rfl⟩
  | ok result =>
      obtain ⟨a, s'⟩ := result
      obtain ⟨key, htarget, hedits⟩ := request.edits_of_run hrun
      exact .inr ⟨a, s', key, rfl, htarget, hedits⟩

end BoxRequest

/-! ## Bytes put inside a box -/

namespace BoxStore

variable {s : BoxStore} {key bytes content content' : Bytes} {start length : Nat}

/-- Whether bytes stand in the place of `length` others at `start`.  What was behind those follows,
    cut or padded with zeros to keep the length. -/
structure Spliced (content : Bytes) (start length : Nat) (bytes content' : Bytes) : Prop where
  length_eq : content'.length = content.length
  before : ∀ i < start, content'[i]? = content[i]?
  placed : ∀ i < bytes.length, start + i < content.length → content'[start + i]? = bytes[i]?
  behind : ∀ i, start + bytes.length + i < content.length →
    content'[start + bytes.length + i]? = some (content[start + length + i]?.getD 0)

/-- A byte past the end of what is fitted reads as zero. -/
theorem getElem?_fit {size i : Nat} (hi : i < size) (bytes : Bytes) :
    (fit size bytes)[i]? = some (bytes[i]?.getD 0) := by
  rw [fit]
  by_cases hin : i < bytes.length
  · rw [List.getElem?_append_left (by rw [List.length_take]; omega),
      List.getElem?_take_of_lt hi, List.getElem?_eq_getElem hin]
    rfl
  · rw [List.getElem?_append_right (by rw [List.length_take]; omega), List.length_take,
      List.getElem?_replicate_of_lt (by omega), List.getElem?_eq_none (by omega)]
    rfl

theorem fit_self (bytes : Bytes) : fit bytes.length bytes = bytes := by
  rw [fit, List.take_length, Nat.sub_self, List.replicate_zero, List.append_nil]

/-- Cutting out bytes, putting others in and restoring the length is splicing. -/
theorem spliced_fit (hfits : start + length ≤ content.length) :
    Spliced content start length bytes
      (fit content.length (content.take start ++ bytes ++ content.drop (start + length))) := by
  have hstart : (content.take start).length = start := by
    rw [List.length_take]
    omega
  refine ⟨length_fit .., ?_, ?_, ?_⟩
  · intro i hi
    have hin : i < content.length := by omega
    rw [getElem?_fit hin, List.append_assoc, List.getElem?_append_left (by omega),
      List.getElem?_take_of_lt hi, List.getElem?_eq_getElem hin]
    rfl
  · intro i hi hin
    rw [getElem?_fit hin, List.getElem?_append_left (by rw [List.length_append]; omega),
      List.getElem?_append_right (by omega), hstart, Nat.add_sub_cancel_left,
      List.getElem?_eq_getElem hi]
    rfl
  · intro i hin
    rw [getElem?_fit hin, List.getElem?_append_right (by rw [List.length_append]; omega),
      List.length_append, hstart, Nat.add_sub_cancel_left, List.getElem?_drop]

/-- Overwriting is splicing in the place of as many bytes. -/
theorem spliced_overwritten (hfits : start + bytes.length ≤ content.length) :
    Spliced content start bytes.length bytes
      (content.take start ++ bytes ++ content.drop (start + bytes.length)) := by
  have hspliced : Spliced content start bytes.length bytes _ := spliced_fit hfits
  rwa [← length_overwritten hfits, fit_self] at hspliced

/-- Splicing in range succeeds. -/
theorem execute_splice (hcontent : s.content? key = some content)
    (hfits : start + length ≤ content.length) :
    ∃ content', (BoxRequest.splice key start length bytes).execute s
        = (.ok (), s.written key content') ∧ Spliced content start length bytes content' :=
  ⟨_, BoxRequest.execute_eq_ok_iff.mpr (run_splice_eq_ok_iff.mpr ⟨content, hcontent, hfits, rfl⟩),
    spliced_fit hfits⟩

/-- Overwriting in range succeeds. -/
theorem execute_replace (hcontent : s.content? key = some content)
    (hfits : start + bytes.length ≤ content.length) :
    ∃ content', (BoxRequest.replace key start bytes).execute s
        = (.ok (), s.written key content') ∧
      Spliced content start bytes.length bytes content' :=
  ⟨_, BoxRequest.execute_eq_ok_iff.mpr (run_replace_eq_ok_iff.mpr ⟨content, hcontent, hfits, rfl⟩),
    spliced_overwritten hfits⟩

/-! ## Stores in use -/

/-- No request, successful or not, puts a box beyond the limit. -/
theorem bounded_of_execute {α : Type} (request : BoxRequest α) (h : s.Bounded) :
    (request.execute s).2.Bounded := by
  obtain ⟨fault, hrun⟩ | ⟨a, s', key, hrun, -, hedits⟩ := request.execute_cases s
  · rw [hrun]
    exact h
  · rw [hrun]
    exact hedits.bounded h

theorem InUse.bounded (h : InUse s) : s.Bounded :=
  h.preserves bounded_empty fun request _ ih => bounded_of_execute request ih

/-- A request leaves every box alone that it does not aim at. -/
theorem content?_execute_of_ne {α : Type} (request : BoxRequest α)
    (hne : request.target ≠ .ok key) : (request.execute s).2.content? key = s.content? key := by
  obtain ⟨fault, hrun⟩ | ⟨a, s', own, hrun, htarget, hedits⟩ := request.execute_cases s
  · rw [hrun]
  · rw [hrun]
    refine hedits.others fun heq => hne ?_
    rw [heq, htarget]

/-- A request that does not resize leaves every box with its length. -/
theorem length_execute {α : Type} (request : BoxRequest α) (hkeeps : request.resizes = false)
    (hcontent : s.content? key = some content) :
    ∃ content', (request.execute s).2.content? key = some content' ∧
      content'.length = content.length := by
  obtain ⟨fault, hrun⟩ | ⟨a, s', own, hrun, htarget, hedits⟩ := request.execute_cases s
  · rw [hrun]
    exact ⟨content, hcontent, rfl⟩
  · rw [hrun]
    by_cases hown : key = own
    · obtain rfl := hown
      exact hedits.lengths hkeeps hcontent
    · exact ⟨content, (hedits.others hown).trans hcontent, rfl⟩

/-- A request that fails leaves the store as it was. -/
theorem execute_of_error {α : Type} (request : BoxRequest α) {fault : Fault}
    (h : (request.execute s).1 = .error fault) : (request.execute s).2 = s := by
  obtain ⟨fault', hrun⟩ | ⟨a, s', own, hrun, -⟩ := request.execute_cases s
  · rw [hrun]
  · rw [hrun] at h
    cases h

/-- **BOXES ARE A BOUNDED MAP WITH FIXED LENGTHS.**  Whatever was done with a store, no box is too
    large.  An operation changes no box but its own; it keeps the length of a box that exists unless
    it resizes, deletes, or stores a value of a dynamic type; and when it fails, every box holds
    what it held.  Overwriting and splicing in range succeed and put the bytes where they belong. -/
theorem bounded_fixed_of_inUse (h : InUse s) :
    (∀ key content, s.content? key = some content → content.length ≤ Limits.box) ∧
      (∀ {α : Type} (request : BoxRequest α),
        (∀ key, request.target ≠ .ok key →
          (request.execute s).2.content? key = s.content? key) ∧
        (request.resizes = false → ∀ key content, s.content? key = some content →
          ∃ content', (request.execute s).2.content? key = some content' ∧
            content'.length = content.length) ∧
        (∀ fault, (request.execute s).1 = .error fault →
          ∀ key, (request.execute s).2.content? key = s.content? key)) ∧
      (∀ key content start bytes, s.content? key = some content →
        start + bytes.length ≤ content.length →
        ∃ s' content', (BoxRequest.replace key start bytes).execute s = (.ok (), s') ∧
          s'.content? key = some content' ∧
          Spliced content start bytes.length bytes content') ∧
      ∀ key content start length bytes, s.content? key = some content →
        start + length ≤ content.length →
        ∃ s' content', (BoxRequest.splice key start length bytes).execute s = (.ok (), s') ∧
          s'.content? key = some content' ∧ Spliced content start length bytes content' := by
  refine ⟨h.bounded, ?_, ?_, ?_⟩
  · intro α request
    refine ⟨fun key => content?_execute_of_ne request, ?_, ?_⟩
    · intro hkeeps key content hcontent
      exact length_execute request hkeeps hcontent
    · intro fault herror key
      rw [execute_of_error request herror]
  · intro key content start bytes hcontent hfits
    obtain ⟨content', hrun, hspliced⟩ := execute_replace hcontent hfits
    exact ⟨_, content', hrun, by rw [content?_written, if_pos rfl], hspliced⟩
  · intro key content start length bytes hcontent hfits
    obtain ⟨content', hrun, hspliced⟩ := execute_splice hcontent hfits
    exact ⟨_, content', hrun, by rw [content?_written, if_pos rfl], hspliced⟩

/-- A box of four bytes. -/
def fourBytes : BoxStore :=
  (BoxRequest.execute (.put [1] [1, 2, 3, 4]) (BoxRequest.execute (.create [1] 4) {}).2).2

/-- A long integer does not fit the box, which keeps its length; nor do two bytes at its end, which
    leave it as it was.  In the place of one byte they push the last one out. -/
theorem bounded_fixed_of_inUse_fourBytes :
    fourBytes.content? [1] = some [1, 2, 3, 4] ∧
      [1, 2, 3, 4].length ≤ Limits.box ∧
      (BoxRequest.execute (.delete [2]) fourBytes).2.content? [1] = some [1, 2, 3, 4] ∧
      (∃ content', (BoxRequest.execute (.store ⟨[1], .uint 64⟩
          ⟨.uint 64, [0, 0, 0, 0, 0, 0, 0, 9], .uint 9⟩) fourBytes).2.content? [1]
        = some content' ∧ content'.length = 4) ∧
      (BoxRequest.execute (.replace [1] 3 [8, 9]) fourBytes).2.content? [1]
        = some [1, 2, 3, 4] ∧
      (∃ s' content', (BoxRequest.replace [1] 2 [8, 9]).execute fourBytes = (.ok (), s') ∧
        s'.content? [1] = some content' ∧ Spliced [1, 2, 3, 4] 2 2 [8, 9] content') ∧
      ∃ s' content', (BoxRequest.splice [1] 1 1 [8, 9]).execute fourBytes = (.ok (), s') ∧
        s'.content? [1] = some content' ∧ Spliced [1, 2, 3, 4] 1 1 [8, 9] content' := by
  have hinUse : InUse fourBytes :=
    .step (.put [1] [1, 2, 3, 4]) trivial (.step (.create [1] 4) trivial .refl)
  have hcontent : fourBytes.content? [1] = some [1, 2, 3, 4] := rfl
  obtain ⟨hbounded, hrequests, hreplace, hsplice⟩ := bounded_fixed_of_inUse hinUse
  refine ⟨hcontent, hbounded [1] _ hcontent, ?_, ?_, ?_, ?_, ?_⟩
  · exact ((hrequests (.delete [2])).1 [1] (by decide)).trans hcontent
  · exact (hrequests (.store ⟨[1], .uint 64⟩ _)).2.1 rfl [1] [1, 2, 3, 4] hcontent
  · exact ((hrequests (.replace [1] 3 [8, 9])).2.2 (.boxOutOfBounds 3 5 4) rfl [1]).trans hcontent
  · exact hreplace [1] [1, 2, 3, 4] 2 [8, 9] hcontent (by decide)
  · exact hsplice [1] [1, 2, 3, 4] 1 1 [8, 9] hcontent (by decide)

end BoxStore

end AvmSandbox
