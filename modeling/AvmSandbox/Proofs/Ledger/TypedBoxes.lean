import AvmSandbox.Proofs.Codec.StaticLength
import AvmSandbox.Proofs.Ledger.BoxWrites

/-! # Typed boxes — what is stored is read back

    A typed write puts the bytes of a value in one of three ways: over the
    beginning of a box when the type is static, over a box that has just been
    given their length when it is dynamic, or in a box of its own when there is
    none.  Whichever way it takes, it fails before anything has changed; and when
    it succeeds, the box reads as the value until it is written to again.

    A box that is created for a static type is filled with zeros, which read as a
    value.  But a type that is too long to have a length is taken for a dynamic
    one: the box gets the size that is asked for, and nothing can be read from it.

    * `Holds`, `Holds.of_passes`: a box that reads as certain bytes, and for how
      long;
    * `exists_run_writeBytes_iff`, `content?_of_run_writeBytes`: typed writes;
    * `exists_value_created_iff`: created boxes;
    * `typed_box_of_reachable`: all of it over stores in use. -/

namespace AvmSandbox

open BoxStore

/-! ## Entries of a map as boxes -/

namespace BoxRequest

variable {s : BoxStore} {map : BoxMap} {k v : Value} {key : Bytes}

/-- A map reads an entry as the typed box at its key. -/
theorem execute_mapValue (hkey : map.boxKey k = .ok key) :
    (mapValue map k).execute s = (value ⟨key, map.valueType⟩).execute s := by
  rw [execute, run, BoxMap.value, BoxMap.entry, hkey]
  rfl

theorem execute_mapValue? (hkey : map.boxKey k = .ok key) :
    (mapValue? map k).execute s = (value? ⟨key, map.valueType⟩).execute s := by
  rw [execute, run, BoxMap.value?, BoxMap.entry, hkey]
  rfl

/-- A map writes an entry as the typed box at its key. -/
theorem execute_mapStore (hkey : map.boxKey k = .ok key) :
    (mapStore map k v).execute s = (storeNative ⟨key, map.valueType⟩ v).execute s := by
  rw [execute, run, BoxMap.store, BoxMap.entry, hkey]
  rfl

theorem execute_mapContains (hkey : map.boxKey k = .ok key) :
    (mapContains map k).execute s = (.ok (s.has key), s) := by
  rw [execute, run, BoxMap.contains, hkey]
  rfl

theorem execute_mapDelete (hkey : map.boxKey k = .ok key) :
    (mapDelete map k).execute s = (delete key).execute s := by
  rw [execute, run, BoxMap.delete, hkey]
  rfl

theorem execute_mapLength (hkey : map.boxKey k = .ok key) :
    (mapLength map k).execute s = (s.length key, s) := by
  rw [execute, run, BoxMap.length, hkey]
  rfl

end BoxRequest

namespace BoxStore

variable {s s' s'' : BoxStore} {key bytes content : Bytes} {type : Descriptor} {e : EncodedValue}

/-- Whether a box and what is remembered of it are the same in two stores. -/
structure SameBox (s s' : BoxStore) (key : Bytes) : Prop where
  content : s'.content? key = s.content? key
  cached : s'.cache.get? key = s.cache.get? key

theorem SameBox.refl (s : BoxStore) (key : Bytes) : SameBox s s key := ⟨rfl, rfl⟩

/-- **AN OPERATION LEAVES OTHER BOXES ALONE**, also what is remembered of them. -/
theorem sameBox_execute {α : Type} (request : BoxRequest α) (hne : request.target ≠ .ok key) :
    SameBox s (request.execute s).2 key := by
  obtain ⟨fault, hrun⟩ | ⟨a, s', own, hrun, htarget, hedits⟩ := request.execute_cases s
  · rw [hrun]
    exact .refl s key
  · have hother : key ≠ own := fun heq => hne (heq ▸ htarget)
    rw [hrun]
    exact ⟨hedits.others hother, hedits.othersCached hother⟩

/-! ## Reading -/

section Reading

variable {box : TypedBox}

theorem execute_decoded :
    (BoxRequest.decoded key type).execute s = restored ((decoded key type).run s) s :=
  BoxRequest.execute_eq ..

theorem execute_value :
    (BoxRequest.value box).execute s = restored ((decoded box.key box.type).run s) s :=
  BoxRequest.execute_eq ..

/-- A remembered value is answered without a look at the box. -/
theorem execute_value_of_remembered (box : TypedBox)
    (h : (s.cache.get? box.key).filter (fun e => e.type = box.type) = some e) :
    (BoxRequest.value box).execute s = (.ok e, s) := by
  rw [execute_value, run_decoded_of_remembered h]
  rfl

/-- A value that is not remembered is answered by decoding the box. -/
theorem execute_value_of_forgotten (box : TypedBox)
    (h : (s.cache.get? box.key).filter (fun e => e.type = box.type) = none) :
    ((BoxRequest.value box).execute s).1 = s.decodedAnew box.key box.type := by
  rw [execute_value, run_decoded_of_forgotten h]
  cases s.decodedAnew box.key box.type <;> rfl

/-- An optional reading answers nothing for a box that is not there, and reads any other. -/
theorem execute_value? :
    (BoxRequest.value? box).execute s =
      if s.has box.key = true then
        (((BoxRequest.value box).execute s).1.map some, ((BoxRequest.value box).execute s).2)
      else (.ok none, s) := by
  have hrun : (BoxRequest.value? box).execute s =
      ((if s.has box.key = true then (do return some (← box.value (Action BoxStore)))
        else return none : Action BoxStore (Option EncodedValue))).run s := rfl
  rw [hrun]
  split
  · rw [Action.run_bind, BoxRequest.execute, BoxRequest.run]
    rcases (box.value (Action BoxStore)).run s with ⟨fault | e, s'⟩ <;> rfl
  · rfl

/-- A typed box of a coherent store can be read when what it holds decodes. -/
theorem exists_value_iff (h : s.Coherent) :
    (∃ e, ((BoxRequest.value box).execute s).1 = .ok e) ↔
      ∃ e, s.decodedAnew box.key box.type = .ok e := by
  have hdecoded := run_decoded h box.key box.type
  rw [execute_value]
  cases hrun : (decoded box.key box.type).run s with
  | error fault =>
      rw [hrun] at hdecoded
      rw [show s.decodedAnew box.key box.type = .error fault from hdecoded]
      rfl
  | ok result =>
      rw [hrun] at hdecoded
      obtain ⟨-, -, e', he', -⟩ := hdecoded
      exact iff_of_true ⟨result.1, rfl⟩ ⟨e', he'⟩

/-- **AN OPERATION THAT READS** a box remembers at most what it has decoded from it. -/
theorem of_execute_reading {α : Type} (request : BoxRequest α) (hreads : request.writes = false)
    (htarget : request.target = .ok key) :
    (request.execute s).2 = s ∨
      ∃ e, s.decodedAnew key e.type = .ok e ∧
        (request.execute s).2 = { s with cache := s.cache.insert key e } := by
  -- every reading is one through the cache, or looks only whether the box is there
  have hdecoded : ∀ type, ((BoxRequest.decoded key type).execute s).2 = s ∨
      ∃ e, s.decodedAnew key e.type = .ok e ∧
        ((BoxRequest.decoded key type).execute s).2
          = { s with cache := s.cache.insert key e } := by
    intro type
    rw [execute_decoded]
    cases hrun : (decoded key type).run s with
    | error fault => exact .inl rfl
    | ok result =>
        obtain ⟨e, s'⟩ := result
        obtain rfl | ⟨hanew, rfl⟩ := of_run_decoded hrun
        · exact .inl rfl
        · obtain ⟨-, -, rfl, -⟩ := decodedAnew_eq_ok_iff.mp hanew
          exact .inr ⟨e, hanew, rfl⟩
  have hvalue? : ∀ type, ((BoxRequest.value? ⟨key, type⟩).execute s).2 = s ∨
      ∃ e, s.decodedAnew key e.type = .ok e ∧
        ((BoxRequest.value? ⟨key, type⟩).execute s).2
          = { s with cache := s.cache.insert key e } := by
    intro type
    rw [execute_value?]
    split
    · exact hdecoded type
    · exact .inl rfl
  cases request with
  | decoded own type =>
      cases htarget
      exact hdecoded type
  | value box =>
      cases htarget
      exact hdecoded box.type
  | value? box =>
      cases htarget
      exact hvalue? box.type
  | mapValue map k =>
      rw [BoxRequest.execute_mapValue htarget]
      exact hdecoded map.valueType
  | mapValue? map k =>
      rw [BoxRequest.execute_mapValue? htarget]
      exact hvalue? map.valueType
  | mapContains map k =>
      rw [BoxRequest.execute_mapContains htarget]
      exact .inl rfl
  | mapLength map k =>
      rw [BoxRequest.execute_mapLength htarget]
      exact .inl rfl
  | _ => cases hreads

end Reading

/-! ## Boxes that read as bytes -/

/-- Whether a box reads as certain bytes of a type, from what it holds and from what is remembered
    of it. -/
structure Holds (s : BoxStore) (key : Bytes) (type : Descriptor) (bytes : Bytes) : Prop where
  held : ∃ content, s.content? key = some content ∧ occupied type content = bytes
  decodes : ∃ v, type.decode bytes = .ok v
  remembered : ∀ e, s.cache.get? key = some e → e.type = type → e.bytes = bytes

namespace Holds

theorem of_sameBox (h : s.Holds key type bytes) (hsame : SameBox s s' key) :
    s'.Holds key type bytes where
  held := by
    rw [hsame.content]
    exact h.held
  decodes := h.decodes
  remembered := by
    rw [hsame.cached]
    exact h.remembered

/-- A box reads as before when something is remembered that was decoded from it. -/
theorem of_decoded (h : s.Holds key type bytes) (hanew : s.decodedAnew key e.type = .ok e) :
    Holds { s with cache := s.cache.insert key e } key type bytes where
  held := h.held
  decodes := h.decodes
  remembered := by
    intro e' he' htype
    rw [Table.get?_insert, if_pos rfl] at he'
    cases he'
    obtain ⟨content, hcontent, hoccupied⟩ := h.held
    obtain ⟨content', hcontent', -, hbytes, -⟩ := decodedAnew_eq_ok_iff.mp hanew
    cases hcontent.symm.trans hcontent'
    rw [hbytes, htype, hoccupied]

/-- One operation that does not write to a box leaves it reading as it did. -/
theorem execute {α : Type} (h : s.Holds key type bytes) (request : BoxRequest α)
    (hspares : request.Spares key) : Holds (request.execute s).2 key type bytes := by
  by_cases htarget : request.target = .ok key
  · obtain hsame | ⟨e, hanew, hread⟩ := of_execute_reading request (hspares htarget) htarget
    · rw [hsame]
      exact h
    · rw [hread]
      exact h.of_decoded hanew
  · exact h.of_sameBox (sameBox_execute request htarget)

/-- **A BOX READS AS IT DID** behind any operations that do not write to it. -/
theorem of_passes (h : s.Holds key type bytes)
    (hpasses : Passes (fun _ request => request.Spares key) s s') : s'.Holds key type bytes :=
  hpasses.preserves (R := fun s => s.Holds key type bytes) h fun request hspares ih =>
    ih.execute request hspares

/-- A box that holds bytes of a type is read as them. -/
theorem exists_value (h : s.Holds key type bytes) :
    ∃ e, ((BoxRequest.value ⟨key, type⟩).execute s).1 = .ok e ∧ e.type = type ∧
      e.bytes = bytes := by
  cases hremembered : (s.cache.get? key).filter fun e => e.type = type with
  | some e =>
      rw [execute_value_of_remembered ⟨key, type⟩ hremembered]
      rw [Option.filter_eq_some_iff, decide_eq_true_iff] at hremembered
      exact ⟨e, rfl, hremembered.2, h.remembered e hremembered.1 hremembered.2⟩
  | none =>
      rw [execute_value_of_forgotten ⟨key, type⟩ hremembered]
      obtain ⟨content, hcontent, rfl⟩ := h.held
      obtain ⟨v, hv⟩ := h.decodes
      exact ⟨⟨type, _, v⟩, decodedAnew_eq_ok_iff.mpr ⟨content, hcontent, rfl, rfl, hv⟩, rfl, rfl⟩

end Holds

end BoxStore

/-! ## Typed writes -/

namespace TypedBox

variable {s s' : BoxStore} {box : TypedBox} {bytes : Bytes} {e : EncodedValue} {v : Value}

/-- Whether bytes can be written to a typed box: they fit in any box, and in this one if it is
    there and its type is static. -/
structure Fits (box : TypedBox) (s : BoxStore) (bytes : Bytes) : Prop where
  bounded : bytes.length ≤ Limits.box
  inPlace : box.type.isDynamic = false →
    ∀ content, s.content? box.key = some content → bytes.length ≤ content.length

/-- What a typed box holds when bytes have been written to it: the bytes, with what stood behind
    them when they are written over the beginning of a box. -/
def overwritten (box : TypedBox) (s : BoxStore) (bytes : Bytes) : Bytes :=
  match s.content? box.key with
  | some content => if box.type.isDynamic then bytes else bytes ++ content.drop bytes.length
  | none => bytes

/-- **WHAT A TYPED WRITE LEAVES** in the box when it succeeds. -/
theorem content?_of_run_writeBytes {u : Unit} (h : (box.writeBytes bytes).run s = .ok (u, s')) :
    s'.content? box.key = some (box.overwritten s bytes) := by
  have hput : ∀ {s : BoxStore}, (put box.key bytes).run s = .ok (u, s') →
      s'.content? box.key = some bytes := by
    intro s h
    obtain ⟨-, -, rfl⟩ := run_put_eq_ok_iff.mp h
    rw [content?_written, if_pos rfl]
  rw [overwritten]
  have h := run_get_bind_eq_ok_iff.mp h
  split at h
  · next habsent =>
      rw [habsent]
      exact hput h
  · next existing hexisting =>
      rw [hexisting]
      dsimp only
      split at h
      · next hstatic =>
          rw [Bool.not_eq_true'] at hstatic
          rw [hstatic, if_neg Bool.false_ne_true]
          split at h
          · cases h
          · obtain ⟨content, hcontent, -, rfl⟩ := run_replace_eq_ok_iff.mp h
            cases hexisting.symm.trans hcontent
            rw [content?_written, if_pos rfl, List.take_zero, List.nil_append, Nat.zero_add]
      · next hdynamic =>
          rw [Bool.not_eq_true, Bool.not_eq_false'] at hdynamic
          rw [if_pos hdynamic]
          split at h
          · obtain ⟨_, middle, -, h⟩ := run_bind_eq_ok_iff.mp h
            exact hput h
          · exact hput h

/-- What is written is all in the box behind the write. -/
theorem length_le_overwritten : bytes.length ≤ (box.overwritten s bytes).length := by
  rw [overwritten]
  split
  · split
    · exact Nat.le_refl _
    · rw [List.length_append]
      omega
  · exact Nat.le_refl _

theorem run_resize {key content : Bytes} {size : Nat} (hcontent : s.content? key = some content)
    (hsize : size ≤ Limits.box) :
    (resize key size).run s = .ok ((), s.written key (fit size content)) := by
  refine run_lift_bind_eq_ok_iff.mpr ⟨(), checkSize_eq_ok_iff.mpr hsize, ?_⟩
  refine run_get_bind_eq_ok_iff.mpr (run_lift_bind_eq_ok_iff.mpr ⟨content, ?_, rfl⟩)
  exact content_eq_ok_iff.mpr hcontent

/-- **A TYPED WRITE SUCCEEDS** when the bytes fit. -/
theorem exists_run_writeBytes_iff (hbounded : s.Bounded) :
    (∃ s', (box.writeBytes bytes).run s = .ok ((), s')) ↔ box.Fits s bytes := by
  constructor
  · rintro ⟨s', h⟩
    have hsize := (edits_of_run_writeBytes h).bounded hbounded box.key _
      (content?_of_run_writeBytes h)
    refine ⟨Nat.le_trans length_le_overwritten hsize, fun hstatic content hcontent => ?_⟩
    have h := run_get_bind_eq_ok_iff.mp h
    rw [hcontent, hstatic] at h
    dsimp only at h
    rw [if_pos (by rfl)] at h
    split at h
    · cases h
    · next hle => exact Nat.not_lt.mp hle
  · rintro ⟨hsize, hinPlace⟩
    simp only [writeBytes, run_get_bind_eq_ok_iff]
    cases hcontent : s.content? box.key with
    | none =>
        refine ⟨_, run_put_eq_ok_iff.mpr ⟨hsize, fun content h => ?_, rfl⟩⟩
        cases hcontent.symm.trans h
    | some content =>
        dsimp only
        cases hdynamic : box.type.isDynamic with
        | false =>
            have hle := hinPlace hdynamic content hcontent
            rw [if_pos (by rfl), if_neg (Nat.not_lt.mpr hle)]
            exact ⟨_, run_replace_eq_ok_iff.mpr ⟨content, hcontent, by omega, rfl⟩⟩
        | true =>
            rw [if_neg (by simp)]
            by_cases hlength : content.length ≠ bytes.length
            · rw [if_pos hlength]
              -- the box has the length of the bytes by the time they are put
              refine ⟨_, run_bind_eq_ok_iff.mpr ⟨(), _, run_resize hcontent hsize,
                run_put_eq_ok_iff.mpr ⟨hsize, fun existing h => ?_, rfl⟩⟩⟩
              rw [content?_written, if_pos rfl] at h
              cases h
              exact length_fit ..
            · rw [if_neg hlength]
              refine ⟨_, run_put_eq_ok_iff.mpr ⟨hsize, fun existing h => ?_, rfl⟩⟩
              cases hcontent.symm.trans h
              exact not_not.mp hlength

/-- What is stored in a typed box is written to it and remembered. -/
theorem run_store_eq_ok_iff {u : Unit} (htype : e.type = box.type) :
    (box.store e).run s = .ok (u, s') ↔
      ∃ middle, (box.writeBytes e.bytes).run s = .ok ((), middle) ∧
        s' = { middle with cache := middle.cache.insert box.key e } := by
  rw [store, if_neg (not_not_intro htype), run_bind_eq_ok_iff]
  constructor
  · rintro ⟨_, middle, hwrite, h⟩
    cases h
    exact ⟨middle, hwrite, rfl⟩
  · rintro ⟨middle, hwrite, rfl⟩
    exact ⟨(), middle, hwrite, rfl⟩

/-- **WHAT IS STORED IS READ BACK**: behind it the box reads as the value. -/
theorem holds_of_run_store {u : Unit} (h : s.Coherent) (hwf : box.type.WellFormed)
    (he : e.Sound) (htype : e.type = box.type) (hrun : (box.store e).run s = .ok (u, s')) :
    s'.Holds box.key box.type e.bytes ∧
      s'.content? box.key = some (box.overwritten s e.bytes) := by
  obtain ⟨middle, hwrite, rfl⟩ := (run_store_eq_ok_iff htype).mp hrun
  obtain ⟨v, hv⟩ := he.decodes
  rw [htype] at hv
  obtain ⟨-, hheld⟩ := of_run_writeBytes h hwf hv hwrite
  refine ⟨⟨hheld, ⟨v, hv⟩, ?_⟩, ?_⟩
  · intro e' he' _
    rw [Table.get?_insert, if_pos rfl] at he'
    cases he'
    rfl
  · show middle.content? box.key = _
    exact content?_of_run_writeBytes hwrite

/-! ## Created boxes -/

/-- The size of a box is at least the length of its type. -/
theorem length_le_of_sizeFor {type : Descriptor} {size : Option Nat} {n length : Nat}
    (h : sizeFor type size = .ok n) (hlength : type.fixedLength? = some length) : length ≤ n := by
  rw [sizeFor.eq_def, hlength] at h
  cases size with
  | none =>
      cases h
      exact Nat.le_refl _
  | some given =>
      dsimp only at h
      split at h
      · cases h
      · next hle =>
          cases h
          exact Nat.not_lt.mp hle

/-- A new box is filled with zeros. -/
theorem of_execute_createTyped {size : Option Nat}
    (h : (BoxRequest.createTyped box size).execute s = (.ok true, s')) :
    ∃ n, sizeFor box.type size = .ok n ∧ n ≤ Limits.box ∧
      s' = s.written box.key (List.replicate n 0) := by
  obtain ⟨n, hn, h⟩ := run_lift_bind_eq_ok_iff.mp (BoxRequest.execute_eq_ok_iff.mp h)
  obtain ⟨_, hsize, h⟩ := run_lift_bind_eq_ok_iff.mp h
  have h := run_get_bind_eq_ok_iff.mp h
  split at h
  · split at h
    · cases h
    · cases h
  · cases h
    exact ⟨n, hn, checkSize_eq_ok_iff.mp hsize, rfl⟩

/-- **A NEW BOX CAN BE READ** as its static type when the type has a length. -/
theorem exists_value_created_iff (box : TypedBox) {size : Option Nat} (h : s.Coherent) (hwf : box.type.WellFormed)
    (hstatic : box.type.isDynamic = false)
    (hrun : (BoxRequest.createTyped box size).execute s = (.ok true, s')) :
    (∃ e, ((BoxRequest.value box).execute s').1 = .ok e) ↔
      ∃ length, box.type.fixedLength? = some length := by
  obtain ⟨n, hn, hsize, rfl⟩ := of_execute_createTyped hrun
  have hcoherent : (s.written box.key (List.replicate n 0)).Coherent :=
    h.written (by rwa [List.length_replicate])
  have hcontent : (s.written box.key (List.replicate n 0)).content? box.key
      = some (List.replicate n 0) := by
    rw [content?_written, if_pos rfl]
  rw [exists_value_iff hcoherent]
  simp only [decodedAnew_eq_ok_iff, hcontent, Option.some.injEq, exists_eq_left']
  constructor
  · rintro ⟨e, -, -, hdecodes⟩
    cases hlength : box.type.fixedLength? with
    | some length => exact ⟨length, rfl⟩
    | none =>
        -- the box is read as a whole, and no buffer is long enough
        rw [occupied, hlength] at hdecodes
        have hshort : (List.replicate n (0 : UInt8)).length < Limits.length := by
          rw [List.length_replicate]
          exact Nat.lt_of_le_of_lt hsize (by decide)
        rw [(Descriptor.exists_decode_iff hwf hstatic hshort).mp ⟨_, hdecodes⟩] at hlength
        cases hlength
  · rintro ⟨length, hlength⟩
    have hle := length_le_of_sizeFor hn hlength
    have htaken : (occupied box.type (List.replicate n 0)).length = length := by
      rw [occupied, hlength]
      dsimp only
      rw [List.length_replicate, if_pos hle, List.length_take, List.length_replicate]
      exact Nat.min_eq_left hle
    obtain ⟨v, hv⟩ := Descriptor.exists_decode_of_length hwf (htaken.symm ▸ hlength)
    exact ⟨⟨box.type, _, v⟩, rfl, rfl, hv⟩

/-! ## Stores in use -/

/-- A write does not fit when it is beyond the limit of boxes or, for a static type, longer than the
    box that is there. -/
theorem not_fits_iff :
    ¬box.Fits s bytes ↔
      Limits.box < bytes.length ∨ box.type.isDynamic = false ∧
        ∃ content, s.content? box.key = some content ∧ content.length < bytes.length := by
  constructor
  · intro h
    by_contra hnone
    rw [not_or, Nat.not_lt, not_and] at hnone
    refine h ⟨hnone.1, fun hstatic content hcontent => ?_⟩
    by_contra hlt
    exact hnone.2 hstatic ⟨content, hcontent, Nat.not_le.mp hlt⟩
  · rintro (hlarge | ⟨hstatic, content, hcontent, hlt⟩) ⟨hbounded, hinPlace⟩
    · exact Nat.not_le.mpr hlarge hbounded
    · exact Nat.not_le.mpr hlt (hinPlace hstatic content hcontent)

/-- **TYPED BOXES ARE WRITTEN AND READ BACK AS A WHOLE.**  Whatever was done with a store: when a
    value is stored in a box of its type, the box reads as the value until it is written to again,
    and the bytes stand over the beginning of a box that there was, if the type is static, or make
    up the box.  It fails exactly when the bytes are too many for any box, or for this one in place,
    and then nothing has changed.  A box that is created for a static type can be read exactly when
    the type has a length. -/
theorem typed_box_of_reachable (box : TypedBox) (h : Reachable s) (hwf : box.type.WellFormed) :
    (∀ e : EncodedValue, e.Built → e.type = box.type →
      match (BoxRequest.store box e).execute s with
      | (.ok _, s') =>
          (∀ s'', Passes (fun _ request => request.Spares box.key) s' s'' →
            ∃ e', ((BoxRequest.value box).execute s'').1 = .ok e' ∧ e'.type = e.type ∧
              e'.bytes = e.bytes) ∧
          (box.type.isDynamic = false → ∀ content, s.content? box.key = some content →
            e.bytes.length ≤ content.length ∧
              s'.content? box.key = some (e.bytes ++ content.drop e.bytes.length)) ∧
          (box.type.isDynamic = true ∨ s.content? box.key = none →
            s'.content? box.key = some e.bytes)
      | (.error _, s') =>
          s' = s ∧ (Limits.box < e.bytes.length ∨ box.type.isDynamic = false ∧
            ∃ content, s.content? box.key = some content ∧ content.length < e.bytes.length)) ∧
    ∀ size s', (BoxRequest.createTyped box size).execute s = (.ok true, s') →
      box.type.isDynamic = false →
      ((∃ e, ((BoxRequest.value box).execute s').1 = .ok e) ↔
        ∃ length, box.type.fixedLength? = some length) := by
  constructor
  · intro e he htype
    -- storing fails exactly where writing the bytes does
    have hwritten : (∃ middle, (box.writeBytes e.bytes).run s = .ok ((), middle)) ↔
        box.Fits s e.bytes := exists_run_writeBytes_iff h.inUse.bounded
    rcases hrun : (BoxRequest.store box e).execute s with ⟨fault | u, s'⟩
    · refine ⟨?_, not_fits_iff.mp fun hfits => ?_⟩
      · have hsame := execute_of_error (BoxRequest.store box e) (congrArg Prod.fst hrun)
        rwa [hrun] at hsame
      · obtain ⟨middle, hwrite⟩ := hwritten.mpr hfits
        have hok : (box.store e).run s = .ok ((), _) :=
          (run_store_eq_ok_iff htype).mpr ⟨middle, hwrite, rfl⟩
        cases hrun.symm.trans (BoxRequest.execute_eq_ok_iff.mpr hok)
    · have hstored := BoxRequest.execute_eq_ok_iff.mp hrun
      obtain ⟨middle, hwrite, -⟩ := (run_store_eq_ok_iff htype).mp hstored
      have hfits := hwritten.mp ⟨middle, hwrite⟩
      obtain ⟨hholds, hcontent'⟩ := holds_of_run_store h.coherent hwf he.sound htype hstored
      refine ⟨fun s'' hpasses => ?_, fun hstatic content hcontent => ?_, fun hwhole => ?_⟩
      · rw [htype]
        exact (hholds.of_passes hpasses).exists_value
      · refine ⟨hfits.inPlace hstatic content hcontent, ?_⟩
        rw [hcontent', overwritten, hcontent]
        simp only [hstatic, Bool.false_eq_true, if_false]
      · rw [hcontent', overwritten]
        rcases hwhole with hdynamic | habsent
        · simp only [hdynamic, if_true]
          cases s.content? box.key <;> rfl
        · rw [habsent]
  · intro size s' hrun hstatic
    exact exists_value_created_iff box h.coherent hwf hstatic hrun

/-- Nine takes the place of the first byte of a box of two, also when the box was read as a longer
    integer and another one was written; and a new box of four bytes reads as an integer. -/
theorem typed_box_of_reachable_oversized :
    let box : TypedBox := ⟨[1], .uint 8⟩
    let nine : EncodedValue := ⟨.uint 8, [9], .uint 9⟩
    (∃ s', (BoxRequest.store box nine).execute oversized = (.ok (), s') ∧
      s'.content? [1] = some [9, 0] ∧
      ∃ e, ((BoxRequest.value box).execute (BoxRequest.execute (.put [2] [5])
        (BoxRequest.execute (.decoded [1] (.uint 16)) s').2).2).1 = .ok e ∧ e.bytes = [9]) ∧
    ∃ s', (BoxRequest.createTyped ⟨[3], .uint 8⟩ (some 4)).execute oversized = (.ok true, s') ∧
      ∃ e, ((BoxRequest.value ⟨[3], .uint 8⟩).execute s').1 = .ok e := by
  intro box nine
  have hwf : (Descriptor.uint 8).WellFormed :=
    Descriptor.wellFormed_leaf rfl ⟨by decide, by decide, rfl⟩
  have hnine : nine.Built := .encoded hwf (rfl : EncodedValue.encodeUpTo 1 (.uint 8) (.uint 9) = _)
  obtain ⟨hstore, -⟩ := typed_box_of_reachable box reachable_oversized hwf
  obtain ⟨-, hcreate⟩ := typed_box_of_reachable ⟨[3], .uint 8⟩ reachable_oversized hwf
  constructor
  · have hstored := hstore nine hnine rfl
    have hrun : (BoxRequest.store box nine).execute oversized = (.ok (), _) := rfl
    rw [hrun] at hstored
    obtain ⟨hreads, hplaced, -⟩ := hstored
    obtain ⟨e, he, -, hbytes⟩ := hreads _ (.step (.put [2] [5]) (fun htarget => by cases htarget)
      (.step (.decoded [1] (.uint 16)) (fun _ => rfl) .refl))
    exact ⟨_, hrun, (hplaced rfl [7, 0] rfl).2, e, he, hbytes⟩
  · have hrun : (BoxRequest.createTyped ⟨[3], .uint 8⟩ (some 4)).execute oversized
        = (.ok true, _) := rfl
    exact ⟨_, hrun, (hcreate _ _ hrun rfl).mpr ⟨1, rfl⟩⟩

/-- **A NEW BOX CAN BE UNREADABLE**: eight bytes are enough to create one for a type of 2^72. -/
theorem created_box_unreadable :
    ¬∀ (s s' : BoxStore) (box : TypedBox) (size : Option Nat), Reachable s →
      box.type.WellFormed → box.type.isDynamic = false →
      (BoxRequest.createTyped box size).execute s = (.ok true, s') →
      ∃ e, ((BoxRequest.value box).execute s').1 = .ok e := by
  intro hall
  have hnone : Descriptor.hypercube.fixedLength? = none := by decide +kernel
  have hrun : (BoxRequest.createTyped ⟨[1], Descriptor.hypercube⟩ (some 8)).execute {}
      = (.ok true, BoxStore.written {} [1] (List.replicate 8 0)) := by
    refine BoxRequest.execute_eq_ok_iff.mpr (run_lift_bind_eq_ok_iff.mpr ⟨8, ?_, rfl⟩)
    rw [sizeFor.eq_def, hnone]
  obtain ⟨length, hlength⟩ := (exists_value_created_iff ⟨[1], Descriptor.hypercube⟩
    coherent_empty Descriptor.wellFormed_hypercube rfl hrun).mp
    (hall _ _ _ _ .refl Descriptor.wellFormed_hypercube rfl hrun)
  rw [hnone] at hlength
  cases hlength

end TypedBox

end AvmSandbox
