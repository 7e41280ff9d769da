import AvmSandbox.Proofs.Ledger.TypedBoxes

/-! # Box maps — one box for one key

    The key of a box in a map is the stem of the map and the encoding of a key.
    All keys of a map have one type and one stem, and encodings of one type are
    the same only for values that are the same in canonical form.  So a map is
    what its name says: an entry is changed through its own key and no other.

    * `BoxMap.boxKey_eq_iff`: keys of boxes;
    * `BoxMap.answers`: what is seen of an entry;
    * `has_of_passes`: how long a box is there;
    * `Lacks.of_passes`, `answers_of_lacks`: how long it is gone, and what is seen then;
    * `box_map_of_reachable`: all of it over stores in use. -/

namespace AvmSandbox

open BoxStore

/-! ## Keys -/

namespace BoxMap

variable {map : BoxMap} {k k' : Value} {key key' : Bytes}

/-- The key of an entry is the stem of the map with the encoded key behind it. -/
theorem boxKey_eq_ok_iff :
    map.boxKey k = .ok key ↔ ∃ bytes, map.keyType.encode k = .ok bytes ∧ map.stem ++ bytes = key := by
  rw [boxKey, bind_eq_ok_iff]
  simp only [pure_eq_ok_iff]

/-- **KEYS OF BOXES ARE THE SAME** exactly when the canonical forms of the keys are. -/
theorem boxKey_eq_iff (hwf : map.keyType.WellFormed) (hk : map.keyType.HasVariants k)
    (hk' : map.keyType.HasVariants k') (hkey : map.boxKey k = .ok key)
    (hkey' : map.boxKey k' = .ok key') :
    key = key' ↔ map.keyType.canonical k = map.keyType.canonical k' := by
  obtain ⟨bytes, hbytes, rfl⟩ := boxKey_eq_ok_iff.mp hkey
  obtain ⟨bytes', hbytes', rfl⟩ := boxKey_eq_ok_iff.mp hkey'
  rw [List.append_cancel_left_eq]
  exact Descriptor.encodeUpTo_eq_iff hwf hk hk' hbytes hbytes'

/-! ## What is seen of an entry -/

/-- What a store answers about an entry of a map. -/
structure Answers where
  value : Result EncodedValue
  value? : Result (Option EncodedValue)
  contains : Result Bool
  length : Result Nat

def answers (map : BoxMap) (k : Value) (s : BoxStore) : Answers where
  value := ((BoxRequest.mapValue map k).execute s).1
  value? := ((BoxRequest.mapValue? map k).execute s).1
  contains := ((BoxRequest.mapContains map k).execute s).1
  length := ((BoxRequest.mapLength map k).execute s).1

end BoxMap

namespace BoxStore

variable {s s' : BoxStore} {key : Bytes} {type : Descriptor}

theorem SameBox.has_eq (h : SameBox s s' key) : s'.has key = s.has key := by
  show (s'.content? key).isSome = (s.content? key).isSome
  rw [h.content]

theorem SameBox.content_eq (h : SameBox s s' key) : s'.content key = s.content key := by
  rw [BoxStore.content, h.content, BoxStore.content]

/-- A box is read the same in two stores that have it in common. -/
theorem SameBox.value_eq (h : SameBox s s' key) :
    ((BoxRequest.value ⟨key, type⟩).execute s').1
      = ((BoxRequest.value ⟨key, type⟩).execute s).1 := by
  cases hremembered : (s.cache.get? key).filter fun e => e.type = type with
  | some e =>
      rw [execute_value_of_remembered ⟨key, type⟩ hremembered,
        execute_value_of_remembered ⟨key, type⟩ (h.cached ▸ hremembered)]
  | none =>
      rw [execute_value_of_forgotten ⟨key, type⟩ hremembered,
        execute_value_of_forgotten ⟨key, type⟩ (h.cached ▸ hremembered), decodedAnew, decodedAnew,
        h.content_eq]

end BoxStore

namespace BoxMap

variable {s s' : BoxStore} {map : BoxMap} {k : Value} {key : Bytes}

/-- **AN ENTRY IS SEEN AS ITS BOX IS**, with what is remembered of it. -/
theorem answers_eq (hkey : map.boxKey k = .ok key) (h : SameBox s s' key) :
    map.answers k s' = map.answers k s := by
  have hvalue? : ((BoxRequest.value? ⟨key, map.valueType⟩).execute s').1
      = ((BoxRequest.value? ⟨key, map.valueType⟩).execute s).1 := by
    rw [execute_value?, execute_value?, h.has_eq]
    split
    · exact congrArg (Except.map some) h.value_eq
    · rfl
  simp only [answers, BoxRequest.execute_mapValue hkey, BoxRequest.execute_mapValue? hkey,
    BoxRequest.execute_mapContains hkey, BoxRequest.execute_mapLength hkey, BoxStore.length,
    h.value_eq, hvalue?, h.has_eq, h.content_eq]

end BoxMap

/-! ## Boxes that are there -/

namespace BoxStore

variable {s s' : BoxStore} {key bytes : Bytes} {box : TypedBox} {e : EncodedValue} {v : Value}

theorem has_eq_true_iff : s.has key = true ↔ ∃ content, s.content? key = some content :=
  Option.isSome_iff_exists

/-- A box that was stored to is there. -/
theorem has_of_run_store {u : Unit} (h : (box.store e).run s = .ok (u, s')) :
    s'.has box.key = true := by
  rw [TypedBox.store] at h
  split at h
  · cases h
  · obtain ⟨_, middle, hwrite, h⟩ := run_bind_eq_ok_iff.mp h
    cases h
    have hcontent : middle.content? box.key = some _ := TypedBox.content?_of_run_writeBytes hwrite
    exact has_eq_true_iff.mpr ⟨_, hcontent⟩

theorem has_of_run_storeNative {u : Unit} (h : (box.storeNative v).run s = .ok (u, s')) :
    s'.has box.key = true := by
  obtain ⟨e, -, h⟩ := run_lift_bind_eq_ok_iff.mp h
  exact has_of_run_store h

/-- An operation that may change the length of a box leaves one behind, unless it deletes it. -/
theorem has_of_resizing {α : Type} {a : α} (request : BoxRequest α)
    (hresizes : request.resizes = true) (hkeeps : request.deletes = false)
    (htarget : request.target = .ok key) (hrun : request.execute s = (.ok a, s')) :
    s'.has key = true := by
  have h := BoxRequest.execute_eq_ok_iff.mp hrun
  cases request with
  | resize own size =>
      cases htarget
      obtain ⟨-, content, rfl⟩ := of_run_resize h
      rw [has_eq_true_iff, content?_written, if_pos rfl]
      exact ⟨_, rfl⟩
  | store box e =>
      cases htarget
      exact has_of_run_store h
  | storeNative box v =>
      cases htarget
      exact has_of_run_storeNative h
  | mapStore map k v =>
      obtain ⟨box, hbox, h⟩ := run_lift_bind_eq_ok_iff.mp h
      cases htarget.symm.trans (BoxMap.entry_eq_ok_iff.mp hbox).1
      exact has_of_run_storeNative h
  | delete _ | mapDelete _ _ => cases hkeeps
  | _ => cases hresizes

/-- One operation leaves a box there unless it deletes it. -/
theorem has_execute {α : Type} (request : BoxRequest α) (hretains : request.Retains key)
    (h : s.has key = true) : (request.execute s).2.has key = true := by
  by_cases htarget : request.target = .ok key
  · cases hresizes : request.resizes with
    | false =>
        obtain ⟨content, hcontent⟩ := has_eq_true_iff.mp h
        obtain ⟨content', hcontent', -⟩ := length_execute request hresizes hcontent
        exact has_eq_true_iff.mpr ⟨content', hcontent'⟩
    | true =>
        rcases hrun : request.execute s with ⟨fault | a, s'⟩
        · have hsame := execute_of_error request (congrArg Prod.fst hrun)
          rw [hrun] at hsame
          obtain rfl : s' = s := hsame
          exact h
        · exact has_of_resizing request hresizes (hretains htarget) htarget hrun
  · rw [(sameBox_execute request htarget).has_eq, h]

/-- **A BOX IS THERE UNTIL IT IS DELETED.** -/
theorem has_of_passes (h : s.has key = true)
    (hpasses : Passes (fun _ request => request.Retains key) s s') : s'.has key = true :=
  hpasses.preserves (R := fun s => s.has key = true) h fun request hretains ih =>
    has_execute request hretains ih

/-! ## Boxes that are gone -/

/-- Whether there is neither a box under a key nor a value that is remembered of one. -/
structure Lacks (s : BoxStore) (key : Bytes) : Prop where
  content : s.content? key = none
  cached : s.cache.get? key = none

/-- A deletion answers whether there was a box, and then there is none. -/
theorem execute_delete (s : BoxStore) (key : Bytes) :
    ∃ s', (BoxRequest.delete key).execute s = (.ok (s.has key), s') ∧ s'.Lacks key := by
  refine ⟨_, rfl, ?_, ?_⟩
  · exact (Table.get?_erase ..).trans (if_pos rfl)
  · exact (Table.get?_erase ..).trans (if_pos rfl)

namespace Lacks

variable (h : s.Lacks key)

include h

/-- Reading finds nothing that could be remembered. -/
theorem execute {α : Type} (request : BoxRequest α) (hspares : request.Spares key) :
    (request.execute s).2.Lacks key := by
  by_cases htarget : request.target = .ok key
  · obtain hsame | ⟨e, hanew, -⟩ := of_execute_reading request (hspares htarget) htarget
    · rw [hsame]
      exact h
    · obtain ⟨content, hcontent, -⟩ := decodedAnew_eq_ok_iff.mp hanew
      cases h.content.symm.trans hcontent
  · have hsame : SameBox s (request.execute s).2 key := sameBox_execute request htarget
    exact ⟨hsame.content.trans h.content, hsame.cached.trans h.cached⟩

/-- **A BOX STAYS GONE** behind any operations that do not write to it. -/
theorem of_passes (hpasses : Passes (fun _ request => request.Spares key) s s') :
    s'.Lacks key :=
  hpasses.preserves (R := fun s => s.Lacks key) h fun request hspares ih =>
    ih.execute request hspares

/-- A box that is lacking is not there. -/
theorem has_eq_false : s.has key = false := by
  show (s.content? key).isSome = false
  rw [h.content]
  rfl

theorem content_eq_error : s.content key = .error (.boxNotCreated key) := by
  rw [BoxStore.content, h.content]

end Lacks

end BoxStore

/-! ## Stores in use -/

namespace BoxMap

variable {s s' : BoxStore} {map : BoxMap} {k k' v : Value} {key key' : Bytes}

/-- What is stored in an entry is encoded, and the box of the entry reads as that. -/
theorem holds_of_execute_mapStore (h : Reachable s) (hwf : map.valueType.WellFormed)
    (hkey : map.boxKey k = .ok key)
    (hrun : (BoxRequest.mapStore map k v).execute s = (.ok (), s')) :
    ∃ bytes, map.valueType.encodeUpTo Limits.box v = .ok bytes ∧
      s'.Holds key map.valueType bytes ∧ s'.has key = true := by
  rw [BoxRequest.execute_mapStore hkey] at hrun
  obtain ⟨e, he, hstore⟩ := run_lift_bind_eq_ok_iff.mp (BoxRequest.execute_eq_ok_iff.mp hrun)
  obtain ⟨htype, hbytes, -⟩ := EncodedValue.of_encodeUpTo he
  obtain ⟨hholds, -⟩ := TypedBox.holds_of_run_store h.coherent hwf
    (EncodedValue.sound_of_encodeUpTo hwf he) htype hstore
  exact ⟨e.bytes, hbytes, hholds, has_of_run_store hstore⟩

/-- What is seen of an entry that has no box. -/
def missing (key : Bytes) : Answers where
  value := .error (.boxNotCreated key)
  value? := .ok none
  contains := .ok false
  length := .error (.boxNotCreated key)

/-- An entry whose box is lacking answers every question as missing. -/
theorem answers_of_lacks (hkey : map.boxKey k = .ok key) (h : s.Lacks key) :
    map.answers k s = missing key := by
  have hvalue : ((BoxRequest.value ⟨key, map.valueType⟩).execute s).1
      = .error (.boxNotCreated key) := by
    rw [execute_value_of_forgotten ⟨key, map.valueType⟩ (by rw [h.cached, Option.filter_none]),
      decodedAnew, h.content_eq_error]
    rfl
  rw [answers, BoxRequest.execute_mapValue hkey, hvalue, BoxRequest.execute_mapValue? hkey,
    execute_value?, h.has_eq_false, BoxRequest.execute_mapContains hkey, h.has_eq_false,
    BoxRequest.execute_mapLength hkey, BoxStore.length, h.content_eq_error]
  rfl

/-- **A BOX MAP IS A FAITHFUL MAP.**  Two keys have the same box exactly when they have the same
    canonical form.  Otherwise storing under one of them or deleting it, successful or failing,
    changes nothing that is seen of the other.  What has been stored under a key is read back, as
    encoded, until the box is written to again, and the entry is there until it is deleted.  A
    deletion answers whether the entry was there, and it is missing until the box is written to
    again. -/
theorem box_map_of_reachable (h : Reachable s) (hkeys : map.keyType.WellFormed)
    (hvalues : map.valueType.WellFormed) (hk : map.keyType.HasVariants k)
    (hk' : map.keyType.HasVariants k') (hkey : map.boxKey k = .ok key)
    (hkey' : map.boxKey k' = .ok key') :
    (key = key' ↔ map.keyType.canonical k = map.keyType.canonical k') ∧
      (map.keyType.canonical k ≠ map.keyType.canonical k' →
        (∀ v, map.answers k' ((BoxRequest.mapStore map k v).execute s).2 = map.answers k' s) ∧
        map.answers k' ((BoxRequest.mapDelete map k).execute s).2 = map.answers k' s) ∧
      (∀ v s', (BoxRequest.mapStore map k v).execute s = (.ok (), s') →
        ∃ bytes, map.valueType.encodeUpTo Limits.box v = .ok bytes ∧
          (∀ s'', Passes (fun _ request => request.Spares key) s' s'' →
            ∃ e, (map.answers k s'').value = .ok e ∧ e.type = map.valueType ∧ e.bytes = bytes) ∧
          ∀ s'', Passes (fun _ request => request.Retains key) s' s'' →
            (map.answers k s'').contains = .ok true) ∧
      ∃ existed s', (BoxRequest.mapDelete map k).execute s = (.ok existed, s') ∧
        (map.answers k s).contains = .ok existed ∧
        ∀ s'', Passes (fun _ request => request.Spares key) s' s'' →
          map.answers k s'' = missing key := by
  have hiff := boxKey_eq_iff hkeys hk hk' hkey hkey'
  refine ⟨hiff, fun hne => ?_, fun v s' hrun => ?_, ?_⟩
  -- another key is another box, which no request to the first one changes
  · have hother : ∀ {α : Type} (request : BoxRequest α), request.target = map.boxKey k →
        map.answers k' (request.execute s).2 = map.answers k' s := by
      intro α request htarget
      refine answers_eq hkey' (sameBox_execute request fun heq => hne (hiff.mp ?_))
      rw [htarget, hkey] at heq
      exact Except.ok.inj heq
    exact ⟨fun v => hother (.mapStore map k v) rfl, hother (.mapDelete map k) rfl⟩
  · obtain ⟨bytes, hbytes, hholds, hhas⟩ := holds_of_execute_mapStore h hvalues hkey hrun
    refine ⟨bytes, hbytes, fun s'' hpasses => ?_, fun s'' hpasses => ?_⟩
    · rw [answers, BoxRequest.execute_mapValue hkey]
      exact (hholds.of_passes hpasses).exists_value
    · rw [answers, BoxRequest.execute_mapContains hkey, has_of_passes hhas hpasses]
  · obtain ⟨s', hrun, hlacks⟩ := execute_delete s key
    refine ⟨s.has key, s', ?_, ?_, fun s'' hpasses => ?_⟩
    · rw [BoxRequest.execute_mapDelete hkey, hrun]
    · rw [answers, BoxRequest.execute_mapContains hkey]
    · exact answers_of_lacks hkey (hlacks.of_passes hpasses)

/-- Texts under pairs of a name and a number. -/
def notes : BoxMap where
  stem := [0x62]
  keyType := .tuple [.string, .uint 8]
  valueType := .string

theorem wellFormed_notes : notes.keyType.WellFormed ∧ notes.valueType.WellFormed := by
  have hstring : Descriptor.string.WellFormed := Descriptor.wellFormed_leaf rfl trivial
  have huint : (Descriptor.uint 8).WellFormed :=
    Descriptor.wellFormed_leaf rfl ⟨by decide, by decide, rfl⟩
  refine ⟨.intro ⟨⟨trivial, trivial⟩, trivial, ?_⟩ ?_, hstring⟩
  · intro c hc hstatic
    rcases List.mem_pair.mp hc with rfl | rfl
    · cases hstatic
    · exact ⟨1, rfl⟩
  · intro c hc
    rcases List.mem_pair.mp hc with rfl | rfl
    · exact hstring
    · exact huint

theorem hasVariants_notes (name : String) (n : Nat) :
    notes.keyType.HasVariants (.tuple [.str name, .uint n]) := by
  refine .intro trivial ?_
  intro c hc
  rcases List.mem_pair.mp hc with rfl | rfl
  · exact Descriptor.everywhere_leaf rfl trivial
  · exact Descriptor.everywhere_leaf rfl trivial

/-- What is noted under one number is there and reads the same when another note was made and
    deleted, of which the first one shows nothing. -/
theorem box_map_of_reachable_notes :
    let first := Value.tuple [.str "a", .uint 1]
    let second := Value.tuple [.str "a", .uint 2]
    let key : Bytes := [0x62, 0, 3, 1, 0, 1, 0x61]
    let key' : Bytes := [0x62, 0, 3, 2, 0, 1, 0x61]
    notes.boxKey first = .ok key ∧ notes.boxKey second = .ok key' ∧
      notes.keyType.canonical first ≠ notes.keyType.canonical second ∧
      ∃ s', (BoxRequest.mapStore notes first (.str "hi")).execute {} = (.ok (), s') ∧
        notes.answers second s' = notes.answers second {} ∧
        ∃ e, (notes.answers first (BoxRequest.execute (.mapDelete notes second)
            (BoxRequest.execute (.mapStore notes second (.str "no")) s').2).2).value = .ok e ∧
          e.bytes = [0, 2, 0x68, 0x69] := by
  intro first second key key'
  have hkey : notes.boxKey first = .ok key := by decide +kernel
  have hkey' : notes.boxKey second = .ok key' := by decide +kernel
  obtain ⟨hkeys, hvalues⟩ := wellFormed_notes
  obtain ⟨hiff, hothers, hstored, -⟩ := box_map_of_reachable .refl hkeys hvalues
    (hasVariants_notes "a" 1) (hasVariants_notes "a" 2) hkey hkey'
  have hne : notes.keyType.canonical first ≠ notes.keyType.canonical second :=
    fun heq => absurd (hiff.mpr heq) (by decide)
  have hok : ((BoxRequest.mapStore notes first (.str "hi")).execute {}).1.isOk = true := by
    decide +kernel
  rcases hrun : (BoxRequest.mapStore notes first (.str "hi")).execute {} with ⟨fault | u, s'⟩
  · rw [hrun] at hok
    cases hok
  · have hsecond := (hothers hne).1 (.str "hi")
    rw [hrun] at hsecond
    obtain ⟨bytes, hbytes, hreads, -⟩ := hstored (.str "hi") s' hrun
    have hspares : ∀ {α : Type} (request : BoxRequest α), request.target = .ok key' →
        request.Spares key := by
      intro α request htarget hown
      exact absurd (Except.ok.inj (htarget.symm.trans hown)) (by decide)
    obtain ⟨e, he, -, rfl⟩ := hreads _ (.step (.mapDelete notes second) (hspares _ hkey')
      (.step (.mapStore notes second (.str "no")) (hspares _ hkey') .refl))
    have hencoded : notes.valueType.encodeUpTo Limits.box (.str "hi") = .ok [0, 2, 0x68, 0x69] := by
      decide +kernel
    exact ⟨hkey, hkey', hne, s', rfl, hsecond, e, he,
      Except.ok.inj (hbytes.symm.trans hencoded)⟩

end BoxMap

end AvmSandbox
