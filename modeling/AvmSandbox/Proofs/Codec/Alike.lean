import AvmSandbox.Proofs.Codec.RoundTrip

/-! # Alike — values that nothing tells apart but their form

    One encoding may come from values of different forms.  What they are made of
    is encoded alike as well, component by component, and it stays so when a
    component is replaced or appended on both sides.

    * `Alike` and `AlikeRow`: values, and rows of them, with the same encodings;
    * `alike_of_rows`: sequences of alike rows are alike;
    * `alikeRow_of_yields`: sequences with one encoding have alike rows, because
      their bytes are read in one way only. -/

namespace AvmSandbox

namespace Descriptor

open Encoding

/-! ## Values -/

/-- Whether two values have the same encodings as a type, or none both. -/
def Alike (t : Descriptor) (v w : Value) : Prop :=
  ∀ bytes, Yields (t.encodeIn v) none bytes none ↔ Yields (t.encodeIn w) none bytes none

variable {t : Descriptor} {v w : Value} {bytes : Bytes}

theorem Alike.symm (h : t.Alike v w) : t.Alike w v := fun bytes => (h bytes).symm

/-- Values with one encoding in common have no others. -/
theorem alike_of_yields (hv : Yields (t.encodeIn v) none bytes none)
    (hw : Yields (t.encodeIn w) none bytes none) : t.Alike v w := by
  intro bytes'
  rw [Yields, Yields, show (t.encodeIn v).run none = _ from hv,
    show (t.encodeIn w).run none = _ from hw]

theorem Alike.encodeUpTo_eq_ok_iff {max : Nat} (h : t.Alike v w) :
    t.encodeUpTo max v = .ok bytes ↔ t.encodeUpTo max w = .ok bytes := by
  rw [Descriptor.encodeUpTo_eq_ok_iff, Descriptor.encodeUpTo_eq_ok_iff, h bytes]

/-- A truth value is alike to itself only. -/
theorem eq_of_alike_bool {b : Bool} (h : bool.Alike (.bool b) w) : w = .bool b := by
  have hb : Yields (bool.encodeIn (.bool b)) none [if b then 0x80 else 0] none := rfl
  have hw := (h _).mp hb
  cases w with
  | bool c =>
      have hc : Yields (bool.encodeIn (.bool c)) none [if c then 0x80 else 0] none := rfl
      have heq := hw.symm.trans hc
      cases b <;> cases c <;> first | rfl | cases heq
  | _ => cases hw

/-! ## Rows -/

/-- Whether two rows of values are alike, one component like the other in its place. -/
structure AlikeRow (ts : List Descriptor) (xs ys : List Value) : Prop where
  length : xs.length = ys.length
  component : ∀ (i : Nat) (t : Descriptor) (x y : Value), ts[i]? = some t → xs[i]? = some x →
    ys[i]? = some y → t.Alike x y

namespace AlikeRow

variable {ts : List Descriptor} {xs ys : List Value}

theorem symm (h : AlikeRow ts xs ys) : AlikeRow ts ys xs :=
  ⟨h.length.symm, fun i t x y ht hx hy => (h.component i t y x ht hy hx).symm⟩

theorem nil : AlikeRow ts [] [] := ⟨rfl, fun _ _ _ _ _ hx => by cases hx⟩

theorem cons {x y : Value} (hxy : t.Alike x y) (h : AlikeRow ts xs ys) :
    AlikeRow (t :: ts) (x :: xs) (y :: ys) := by
  refine ⟨congrArg Nat.succ h.length, ?_⟩
  intro i u a b hu ha hb
  cases i with
  | zero =>
      cases hu
      cases ha
      cases hb
      exact hxy
  | succ i => exact h.component i u a b hu ha hb

theorem head {x y : Value} (h : AlikeRow (t :: ts) (x :: xs) (y :: ys)) : t.Alike x y :=
  h.component 0 t x y rfl rfl rfl

theorem tail {x y : Value} (h : AlikeRow (t :: ts) (x :: xs) (y :: ys)) : AlikeRow ts xs ys :=
  ⟨Nat.succ.inj h.length, fun i u a b hu ha hb => h.component (i + 1) u a b hu ha hb⟩

/-- One component may be replaced on both sides. -/
theorem set (h : AlikeRow ts xs ys) (index : Nat) (v : Value) :
    AlikeRow ts (xs.set index v) (ys.set index v) := by
  refine ⟨by rw [List.length_set, List.length_set, h.length], ?_⟩
  intro i t x y ht hx hy
  by_cases hi : index = i
  · subst hi
    rw [List.getElem?_set_self'] at hx hy
    obtain ⟨_, -, rfl⟩ := Option.map_eq_some_iff.mp hx
    obtain ⟨_, -, rfl⟩ := Option.map_eq_some_iff.mp hy
    exact fun _ => Iff.rfl
  · rw [List.getElem?_set_ne hi] at hx hy
    exact h.component i t x y ht hx hy

/-- One component may be appended on both sides. -/
theorem concat {n : Nat} (h : AlikeRow (List.replicate n t) xs ys) (hn : xs.length = n)
    (v : Value) : AlikeRow (List.replicate (n + 1) t) (xs ++ [v]) (ys ++ [v]) := by
  refine ⟨by rw [List.length_append, List.length_append, h.length], ?_⟩
  intro i u x y hu hx hy
  have hbound : i < n + 1 := by
    obtain ⟨hlt, -⟩ := List.getElem?_eq_some_iff.mp hu
    rwa [List.length_replicate] at hlt
  obtain rfl : u = t := List.eq_of_mem_replicate (List.mem_of_getElem? hu)
  have hlength := h.length
  by_cases hi : i < n
  · rw [List.getElem?_append_left (by omega)] at hx hy
    refine h.component i u x y ?_ hx hy
    rw [List.getElem?_replicate, if_pos hi]
  · obtain rfl : i = n := by omega
    rw [← hn, List.getElem?_concat_length] at hx
    rw [← hn, hlength, List.getElem?_concat_length] at hy
    cases hx
    cases hy
    exact fun _ => Iff.rfl

end AlikeRow

/-- Alike rows are encoded to the same parts. -/
theorem AlikeRow.yields {ts : List Descriptor} {xs ys : List Value} {parts : List Part}
    {after : Layout} (h : AlikeRow ts xs ys) (hrow : RowYields ts xs none parts after) :
    RowYields ts ys none parts after := by
  generalize hbefore : (none : Layout) = before at hrow ⊢
  induction hrow generalizing ys with
  | nil =>
      obtain rfl : ys = [] := List.length_eq_zero_iff.mp h.length.symm
      exact .nil
  | bit b _ ih =>
      obtain ⟨y, ys, rfl⟩ : ∃ y more, ys = y :: more :=
        List.exists_cons_of_length_eq_add_one h.length.symm
      obtain rfl := eq_of_alike_bool h.head
      exact .bit b (ih h.tail hbefore)
  | whole hb hbytes _ ih =>
      obtain ⟨y, ys, rfl⟩ : ∃ y more, ys = y :: more :=
        List.exists_cons_of_length_eq_add_one h.length.symm
      subst hbefore
      cases grows_encodeIn hbytes
      exact .whole hb ((h.head _).mp hbytes) (ih h.tail rfl)

/-- Sequences of alike rows are alike. -/
theorem alike_of_rows {xs ys : List Value} (ht : t.isSequence = true) (hxs : t.rowItems v = .ok xs)
    (hys : t.rowItems w = .ok ys) (h : AlikeRow (t.rowTypes xs.length) xs ys) : t.Alike v w := by
  have hencode : ∀ {v w : Value} {xs ys : List Value} {bytes}, t.rowItems v = .ok xs →
      t.rowItems w = .ok ys → AlikeRow (t.rowTypes xs.length) xs ys →
      Yields (t.encodeIn v) none bytes none → Yields (t.encodeIn w) none bytes none := by
    intro v w xs ys bytes hxs hys h hv
    obtain ⟨items, parts, body, count, hitems, hparts, hbody, hcount, rfl⟩ :=
      (yields_encodeIn_sequence ht).mp hv
    cases hxs.symm.trans hitems
    have hrow := h.yields hparts
    rw [h.length] at hrow hcount
    exact (yields_encodeIn_sequence ht).mpr ⟨ys, parts, body, count, hys, hrow, hbody, hcount, rfl⟩
  intro bytes
  exact ⟨hencode hxs hys h, hencode hys hxs (h.length ▸ h.symm)⟩

/-! ## One encoding -/

theorem wholePart_injective {as bs : Bytes} (h : t.wholePart as = t.wholePart bs) : as = bs := by
  cases hd : t.isDynamic with
  | true =>
      rw [wholePart_varying hd, wholePart_varying hd] at h
      exact Part.varying.inj h
  | false =>
      rw [wholePart_fixed hd, wholePart_fixed hd] at h
      exact Part.fixed.inj h

theorem rowYields_cons_iff {ts : List Descriptor} {items : List Value} {parts : List Part} :
    RowYields (t :: ts) (v :: items) none parts none ↔
      ∃ part more, parts = part :: more ∧ RowYields ts items none more none ∧
        ((t = bool ∧ ∃ b, v = .bool b ∧ part = .bit b) ∨
          (t.isBool = false ∧ ∃ bytes, part = t.wholePart bytes ∧
            Yields (t.encodeIn v) none bytes none)) := by
  constructor
  · intro h
    cases h with
    | bit b hrow => exact ⟨_, _, rfl, hrow, .inl ⟨rfl, b, rfl, rfl⟩⟩
    | whole hb hbytes hrow =>
        cases grows_encodeIn hbytes
        exact ⟨_, _, rfl, hrow, .inr ⟨hb, _, rfl, hbytes⟩⟩
  · rintro ⟨part, more, rfl, hrow, ⟨rfl, b, rfl, rfl⟩ | ⟨hb, bytes, rfl, hbytes⟩⟩
    · exact .bit b hrow
    · exact .whole hb hbytes hrow

/-- Rows with the same parts are alike. -/
theorem RowYields.alikeRow {ts : List Descriptor} {xs ys : List Value} {parts : List Part}
    (hxs : RowYields ts xs none parts none) (hys : RowYields ts ys none parts none) :
    AlikeRow ts xs ys := by
  induction ts generalizing xs ys parts with
  | nil =>
      cases hxs
      cases hys
      exact .nil
  | cons t ts ih =>
      obtain ⟨x, xs, rfl⟩ : ∃ x more, xs = x :: more := by
        cases hxs with
        | bit | whole => exact ⟨_, _, rfl⟩
      obtain ⟨y, ys, rfl⟩ : ∃ y more, ys = y :: more := by
        cases hys with
        | bit | whole => exact ⟨_, _, rfl⟩
      obtain ⟨part, more, rfl, hmore, hx⟩ := rowYields_cons_iff.mp hxs
      obtain ⟨part', more', hparts, hmore', hy⟩ := rowYields_cons_iff.mp hys
      cases hparts
      refine .cons ?_ (ih hmore hmore')
      rcases hx with ⟨rfl, b, rfl, rfl⟩ | ⟨hb, bytes, rfl, hbytes⟩
      · rcases hy with ⟨-, c, rfl, hc⟩ | ⟨hb, -⟩
        · cases hc
          exact fun _ => Iff.rfl
        · cases hb
      · rcases hy with ⟨rfl, -⟩ | ⟨-, bytes', hbytes', hy⟩
        · cases hb
        · rw [← wholePart_injective hbytes'] at hy
          exact alike_of_yields hbytes hy

/-- The row behind an encoding: its components settle to those of the decoded value, with the same
    parts. -/
theorem exists_row_of_yields {items : List Value} (hwf : t.WellFormed) (ht : t.isSequence = true)
    (hitems : t.rowItems v = .ok items) (h : Yields (t.encodeIn v) none bytes none) :
    ∃ us parts, us.length = items.length ∧ t.rowItems (t.rowValue us) = .ok us ∧
      t.decode bytes = .ok (t.rowValue us) ∧
      RowYields (t.rowTypes us.length) items none parts none ∧
      RowYields (t.rowTypes us.length) us none parts none := by
  obtain ⟨items', parts, body, count, hitems', hparts, hbody, hcount, rfl⟩ :=
    (yields_encodeIn_sequence ht).mp h
  cases hitems.symm.trans hitems'
  obtain ⟨us, hus, hback, hform, hcanonical, hrow⟩ :=
    settle_row ht hwf.here.names (takesCount_of_rowItems hitems)
      (fun c hc _ _ _ _ => settle (hwf.valid.inside hc)) hparts
  rw [← hus] at hparts hrow hcount
  have hyields := (yields_encodeIn_sequence ht).mpr
    ⟨us, parts, body, count, hback, hrow, hbody, hcount, rfl⟩
  refine ⟨us, parts, hus, hback, ?_, hparts, hrow⟩
  exact (decodeIn_eq_ok_iff hwf.valid hform hyields .byValue).mpr
    ⟨readable_of_wellFormed hwf _, hcanonical⟩

/-- **SEQUENCES WITH ONE ENCODING HAVE ALIKE ROWS**: their bytes decode to one value, which has the
    parts of both. -/
theorem alikeRow_of_yields {xs ys : List Value} (hwf : t.WellFormed) (ht : t.isSequence = true)
    (hxs : t.rowItems v = .ok xs) (hys : t.rowItems w = .ok ys)
    (hv : Yields (t.encodeIn v) none bytes none) (hw : Yields (t.encodeIn w) none bytes none) :
    AlikeRow (t.rowTypes xs.length) xs ys := by
  obtain ⟨us, ps, hus, hback, hdecode, hxsRow, husRow⟩ := exists_row_of_yields hwf ht hxs hv
  obtain ⟨us', qs, hus', hback', hdecode', hysRow, husRow'⟩ := exists_row_of_yields hwf ht hys hw
  -- both rows settle to the same one
  have hvalue := Except.ok.inj (hdecode.symm.trans hdecode')
  rw [hvalue] at hback
  cases hback.symm.trans hback'
  have hlen := (length_rowTypes ht (takesCount_of_rowItems hback)).symm
  have hsame := ((yields_encodeRow_iff hlen).mpr husRow).symm.trans
    ((yields_encodeRow_iff hlen).mpr husRow')
  cases hsame
  rw [← hus]
  exact hxsRow.alikeRow hysRow

end Descriptor

end AvmSandbox
