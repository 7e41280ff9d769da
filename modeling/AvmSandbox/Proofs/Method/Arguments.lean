import AvmSandbox.Method.Call
import AvmSandbox.Proofs.Codec.Built
import AvmSandbox.Proofs.Codec.IndexRoundTrip
import AvmSandbox.Proofs.Group

/-! # Arguments — what was encoded into a call is found in it again

    The arguments of a method become the entries behind the selector: one entry
    each, or, when there are more than fifteen, the first fourteen and a tuple of
    all others.  The reader counts the types where the writer has counted the
    values, and both come to the same entries.

    * `wellFormed_tuple_of_encodeUpTo`: the tuple of the last arguments can be laid
      out if it was encoded, although nobody has asked for that;
    * `yields_encodeEntries_iff`, `exists_decodeEntries`: entry by entry;
    * `decodeArgs_encodeArgs`: the round trip. -/

namespace AvmSandbox

open Encoding

namespace Descriptor

/-- With references by value, no arrays are left behind. -/
theorem yields_encodeWithin_none_iff {t : Descriptor} {max : Nat} {v : Value} {bytes : Bytes}
    {after : Layout} :
    Yields (t.encodeWithin max v) none bytes after ↔
      t.encodeUpTo max v = .ok bytes ∧ after = none := by
  rw [encodeUpTo_eq_ok_iff, yields_encodeWithin_iff]
  constructor
  · rintro ⟨h, hle⟩
    cases grows_encodeIn h
    exact ⟨⟨h, hle⟩, rfl⟩
  · rintro ⟨h, rfl⟩
    exact h

/-! ## Tuples that were encoded -/

/-- A static type has a length if a short layout of it is written. -/
theorem sized_of_layout {t : Descriptor} {v : Value} (hwf : t.WellFormed)
    (hstatic : t.isDynamic = false) (hv : t.HasForm v) (hfits : t.Representable v)
    (hle : (t.layout v).length ≤ Limits.twoByte) : ∃ n, t.fixedLength? = some n := by
  have hyields := yields_layout hv hfits hle
  obtain ⟨w, hw, -⟩ := exists_decode_of_encodeUpTo hwf
    (encodeUpTo_eq_ok_iff.mpr ⟨hyields, Nat.le_refl _⟩)
  cases hn : t.fixedLength? with
  | some n => exact ⟨n, rfl⟩
  | none =>
      have hlong := length_le_of_decode hwf hstatic hw hn
      rw [length_written] at hlong
      have hmemory : Limits.twoByte < Limits.length := by decide
      omega

/-- A tuple of types that can be laid out can be laid out itself if it was encoded: a component
    without a length would not have fitted. -/
theorem wellFormed_tuple_of_encodeUpTo {ts : List Descriptor} {items : List Value} {max : Nat}
    {bytes : Bytes} (hwf : ∀ t ∈ ts, t.WellFormed) (hv : (tuple ts).HasVariants (.tuple items))
    (hmax : max ≤ Limits.twoByte) (h : (tuple ts).encodeUpTo max (.tuple items) = .ok bytes) :
    (tuple ts).WellFormed := by
  obtain ⟨hyields, hle⟩ := encodeUpTo_eq_ok_iff.mp h
  have hform := hasForm_of_yields hv hyields
  have hfits := representable_of_yields hform hyields
  obtain rfl := eq_layout_of_yields hform hyields
  obtain ⟨_, hitems⟩ := (arityHere_iff rfl hform.here.1).mp hform.here.2
  rw [length_written, layout_sequence rfl hform.here.1 hitems] at hle
  have hle : (rowOctets ((tuple ts).components (.tuple items))).length ≤ max := hle
  refine .intro ⟨⟨trivial, trivial⟩, trivial, ?_⟩ hwf
  intro t ht hstatic
  have hlen : items.length = ts.length := hform.here.2
  rw [show (tuple ts).inner = ts from rfl, ← List.map_fst_zip (Nat.le_of_eq hlen.symm)] at ht
  obtain ⟨c, hc, rfl⟩ := List.mem_map.mp ht
  have hentry : c ∈ (tuple ts).entries (.tuple items) := hc
  cases hb : c.1.isBool with
  | true => exact ⟨1, by rw [eq_bool_of_isBool hb]; rfl⟩
  | false =>
      refine sized_of_layout (hwf c.1 (List.of_mem_zip hc).1) hstatic (hform.inside hentry)
        (hfits.inside hentry) ?_
      exact Nat.le_trans (length_layout_le hentry hb) (Nat.le_trans hle hmax)

/-- The canonical components of a row are those of its components. -/
theorem canonicalRow_eq_ok_iff {ts : List Descriptor} {items us : List Value} :
    canonicalRow ts items = .ok us ↔
      List.Forall₂ (fun c u => c.1.canonical c.2 = .ok u) (ts.zip items) us := by
  induction ts generalizing items us with
  | nil =>
      rw [canonicalRow_nil, List.zip_nil_left, List.forall₂_nil_left_iff, Except.ok.injEq, eq_comm]
  | cons t ts ih =>
      cases items with
      | nil =>
          rw [List.zip_nil_right, List.forall₂_nil_left_iff, canonicalRow]
          · rw [pure_eq_ok_iff, eq_comm]
          · simp
      | cons v items =>
          rw [canonicalRow_cons_eq_ok_iff, List.zip_cons_cons, List.forall₂_cons_left_iff]
          simp only [ih]

end Descriptor

namespace Method

open Descriptor Transaction

/-! ## Entries -/

/-- Each entry is the encoding of its value, and no reference is laid out by index. -/
theorem yields_encodeEntries_iff {ts : List Descriptor} {vs : List Value} {entries : List Bytes}
    {after : Layout} :
    Yields (encodeEntries ts vs) none entries after ↔
      List.Forall₂ (fun c entry => c.1.encode c.2 = .ok entry) (ts.zip vs) entries ∧
        after = none := by
  induction ts generalizing vs entries after with
  | nil =>
      rw [encodeEntries, yields_pure, List.zip_nil_left, List.forall₂_nil_left_iff]
      · simp only [eq_comm]
      · simp
  | cons t ts ih =>
      cases vs with
      | nil =>
          rw [encodeEntries, yields_pure, List.zip_nil_right, List.forall₂_nil_left_iff]
          · simp only [eq_comm]
          · simp
      | cons v vs =>
          rw [encodeEntries, List.zip_cons_cons, List.forall₂_cons_left_iff]
          simp only [yields_bind, yields_pure, yields_encodeWithin_none_iff]
          constructor
          · rintro ⟨entry, _, ⟨hentry, rfl⟩, more, _, hmore, rfl, rfl⟩
            obtain ⟨hall, rfl⟩ := ih.mp hmore
            exact ⟨⟨entry, more, hentry, hall, rfl⟩, rfl⟩
          · rintro ⟨⟨entry, more, hentry, hmore, rfl⟩, rfl⟩
            exact ⟨entry, none, ⟨hentry, rfl⟩, more, none, ih.mpr ⟨hmore, rfl⟩, rfl, rfl⟩

/-- Entries decode to the canonical forms of the values they were made from. -/
theorem exists_decodeEntries {ts : List Descriptor} {vs : List Value} {entries : List Bytes}
    (hlen : vs.length = ts.length) (hwf : ∀ t ∈ ts, t.WellFormed)
    (hvs : ∀ c ∈ ts.zip vs, c.1.HasVariants c.2)
    (h : List.Forall₂ (fun c entry => c.1.encode c.2 = .ok entry) (ts.zip vs) entries) :
    ∃ ws, decodeEntries none ts entries = .ok ws ∧ canonicalRow ts vs = .ok ws := by
  induction ts generalizing vs entries with
  | nil =>
      refine ⟨[], ?_, canonicalRow_nil vs⟩
      rw [decodeEntries]
      simp
  | cons t ts ih =>
      cases vs with
      | nil => cases hlen
      | cons v vs =>
          rw [List.forall_mem_cons] at hwf
          rw [List.zip_cons_cons, List.forall_mem_cons] at hvs
          rw [List.zip_cons_cons, List.forall₂_cons_left_iff] at h
          obtain ⟨entry, more, hentry, hmore, rfl⟩ := h
          obtain ⟨ws, hdecode, hcanonical⟩ := ih (Nat.succ.inj hlen) hwf.2 hvs.2 hmore
          obtain ⟨hyields, -⟩ := encodeUpTo_eq_ok_iff.mp hentry
          have hform := hasForm_of_yields hvs.1 hyields
          obtain ⟨w, hw⟩ := exists_canonical hform
          have hread : t.decodeIn none entry = .ok w :=
            (decodeIn_eq_ok_iff hwf.1.valid hform hyields .byValue).mpr
              ⟨readable_of_wellFormed hwf.1 v, hw⟩
          refine ⟨w :: ws, ?_, canonicalRow_cons_eq_ok_iff.mpr ⟨w, ws, hw, hcanonical, rfl⟩⟩
          rw [decodeEntries]
          exact bind_eq_ok_iff.mpr ⟨w, hread, bind_eq_ok_iff.mpr ⟨ws, hdecode, rfl⟩⟩

/-! ## The last arguments -/

theorem canonical_tuple_eq_ok_iff {ts : List Descriptor} {vs : List Value} {w : Value} :
    (tuple ts).canonical (.tuple vs) = .ok w ↔
      ∃ us, canonicalRow ts vs = .ok us ∧ w = .tuple us := by
  rw [canonical, bind_eq_ok_iff]
  simp only [pure_eq_ok_iff, eq_comm (a := w)]

theorem unpackEntries_concat (values rest : List Value) :
    unpackEntries (values ++ [.tuple rest]) = .ok (values ++ rest) := by
  rw [unpackEntries, List.getLast?_concat, List.dropLast_concat]

/-- What belongs to a list with one more element at the end has one more at the end. -/
theorem exists_of_forall₂_concat {α β : Type} {R : α → β → Prop} {xs : List α} {x : α} {ys : List β}
    (h : List.Forall₂ R (xs ++ [x]) ys) :
    ∃ us u, ys = us ++ [u] ∧ List.Forall₂ R xs us ∧ R x u := by
  have hfront := (List.forall₂_take_append _ _ _ h.flip).flip
  have hlast := (List.forall₂_drop_append _ _ _ h.flip).flip
  obtain ⟨u, _, hu, hnil, hdrop⟩ := List.forall₂_cons_left_iff.mp hlast
  cases hnil
  refine ⟨ys.take xs.length, u, ?_, hfront, hu⟩
  rw [← hdrop, List.take_append_drop]

section entries

variable {ts : List Descriptor} {vs : List Value}

theorem packs_iff {n : Nat} : packs n = true ↔ 16 ≤ n := decide_eq_true_iff

/-- Up to fifteen arguments are the entries. -/
theorem entries_of_le (hlen : vs.length = ts.length) (h : vs.length ≤ 15) :
    entryTypes ts = ts ∧ entryValues vs = vs := by
  have hpacks : ¬packs vs.length = true := by
    rw [packs_iff]
    omega
  rw [entryTypes, entryValues, ← hlen]
  exact ⟨if_neg hpacks, if_neg hpacks⟩

/-- Of more arguments fourteen are entries, and one more holds all others. -/
theorem entries_of_lt (hlen : vs.length = ts.length) (h : 16 ≤ vs.length) :
    entryTypes ts = ts.take 14 ++ [tuple (ts.drop 14)] ∧
      entryValues vs = vs.take 14 ++ [.tuple (vs.drop 14)] := by
  rw [entryTypes, entryValues, ← hlen]
  exact ⟨if_pos (packs_iff.mpr h), if_pos (packs_iff.mpr h)⟩

/-- Fourteen entries and the packed one are paired with their types. -/
theorem zip_entries_of_lt (hlen : vs.length = ts.length) (h : 16 ≤ vs.length) :
    (entryTypes ts).zip (entryValues vs)
      = (ts.zip vs).take 14 ++ [(tuple (ts.drop 14), .tuple (vs.drop 14))] := by
  obtain ⟨htypes, hvalues⟩ := entries_of_lt hlen h
  have htake : (ts.take 14).zip (vs.take 14) = (ts.zip vs).take 14 := List.take_zipWith.symm
  rw [htypes, hvalues, List.zip_append (by rw [List.length_take, List.length_take, hlen]), htake]
  rfl

/-- The entries of values in the reader's form are in that form, and their types can be laid out
    if they were encoded. -/
theorem wellFormed_entries {entries : List Bytes} (hlen : vs.length = ts.length)
    (hwf : ∀ t ∈ ts, t.WellFormed) (hvs : ∀ c ∈ ts.zip vs, c.1.HasVariants c.2)
    (h : List.Forall₂ (fun c entry => c.1.encode c.2 = .ok entry)
      ((entryTypes ts).zip (entryValues vs)) entries) :
    (∀ t ∈ entryTypes ts, t.WellFormed) ∧
      ∀ c ∈ (entryTypes ts).zip (entryValues vs), c.1.HasVariants c.2 := by
  by_cases hmany : 16 ≤ vs.length
  · have hdrop : (ts.drop 14).zip (vs.drop 14) = (ts.zip vs).drop 14 := List.drop_zipWith.symm
    have hpacked : (tuple (ts.drop 14)).HasVariants (.tuple (vs.drop 14)) := by
      refine .intro trivial ?_
      intro c hc
      have hc : c ∈ (ts.drop 14).zip (vs.drop 14) := hc
      rw [hdrop] at hc
      exact hvs c (List.mem_of_mem_drop hc)
    rw [zip_entries_of_lt hlen hmany] at h ⊢
    obtain ⟨single, packed, rfl, -, hencode⟩ := exists_of_forall₂_concat h
    constructor
    · rw [(entries_of_lt hlen hmany).1, List.forall_mem_append, List.forall_mem_singleton]
      refine ⟨fun t ht => hwf t (List.mem_of_mem_take ht), ?_⟩
      exact wellFormed_tuple_of_encodeUpTo (fun t ht => hwf t (List.mem_of_mem_drop ht)) hpacked
        (by decide) hencode
    · rw [List.forall_mem_append, List.forall_mem_singleton]
      exact ⟨fun c hc => hvs c (List.mem_of_mem_take hc), hpacked⟩
  · obtain ⟨htypes, hvalues⟩ := entries_of_le hlen (Nat.le_of_lt_succ (Nat.not_le.mp hmany))
    rw [htypes, hvalues]
    exact ⟨hwf, hvs⟩

theorem length_entries (hlen : vs.length = ts.length) :
    (entryValues vs).length = min vs.length 15 ∧ (entryTypes ts).length = min vs.length 15 := by
  by_cases hmany : 16 ≤ vs.length
  · obtain ⟨htypes, hvalues⟩ := entries_of_lt hlen hmany
    rw [htypes, hvalues]
    simp only [List.length_append, List.length_take, List.length_singleton]
    omega
  · obtain ⟨htypes, hvalues⟩ := entries_of_le hlen (Nat.le_of_lt_succ (Nat.not_le.mp hmany))
    rw [htypes, hvalues]
    omega

end entries

/-! ## The round trip -/

/-- The call takes over the selector and the entries, and nothing else of it changes. -/
theorem of_encodeArgs {m : Method} {txn txn' : Transaction} {c : AppCall} {args : List Value}
    (hcall : txn.body = .call c) (hvalue : c.encoding = .value)
    (h : (m.encodeArgs args).run txn = (.ok (), txn')) :
    args.length = m.valueTypes.length ∧ ∃ entries,
      List.Forall₂ (fun e entry => e.1.encode e.2 = .ok entry)
        ((entryTypes m.valueTypes).zip (entryValues args)) entries ∧
      txn' = { txn with body := .call { c with args := m.selector :: entries } } := by
  have h : Action.Yields (m.encodeArgs args) txn () txn' := h
  rw [encodeArgs, Action.yields_unless, Action.yields_bind] at h
  obtain ⟨hlen, entries, middle, hembed, hmodify⟩ := h
  obtain ⟨after, hentries, rfl⟩ := Transaction.embed_eq_ok_iff.mp hembed
  rw [layout_of_value hcall hvalue, yields_encodeEntries_iff] at hentries
  obtain ⟨hentries, rfl⟩ := hentries
  refine ⟨(not_not.mp hlen).symm, entries, hentries, ?_⟩
  rw [setLayout_none, modifyCall, Action.yields_get_bind] at hmodify
  obtain ⟨c', hc', hmodify⟩ := Action.yields_lift_bind.mp hmodify
  obtain ⟨c'', hc'', hmodify⟩ := Action.yields_lift_bind.mp hmodify
  cases hcall.symm.trans (call_eq_ok_iff.mp hc')
  cases hc''
  exact (Action.yields_set.mp hmodify).symm

/-- The reader finds the entries behind the selector. -/
theorem decodeArgs_of_entries {m : Method} {header : Header} {c : AppCall} {entries : List Bytes}
    {values ws : List Value} (hvalue : c.encoding = .value)
    (hlen : entries.length = (entryTypes m.valueTypes).length)
    (hvalues : decodeEntries none (entryTypes m.valueTypes) entries = .ok values)
    (hws : (if packs m.valueTypes.length then unpackEntries values else .ok values) = .ok ws) :
    m.decodeArgs ⟨header, .call { c with args := m.selector :: entries }⟩ = .ok ws := by
  have hlayout : layout ⟨header, .call { c with args := m.selector :: entries }⟩ = none :=
    layout_of_value rfl hvalue
  refine bind_eq_ok_iff.mpr ⟨_, rfl, ?_⟩
  dsimp only
  rw [List.head?_cons, if_neg (not_not.mpr rfl), List.drop_one, List.tail_cons,
    if_neg (not_not.mpr hlen), hlayout]
  exact bind_eq_ok_iff.mpr ⟨values, hvalues, hws⟩

/-- **ROUND TRIP OF THE ARGUMENTS**: the call that takes up the arguments of a method is changed in
    its arguments only, which are the selector and at most fifteen entries, and the arguments that
    are read from it are those that were given, in canonical form. -/
theorem decodeArgs_encodeArgs {m : Method} {txn txn' : Transaction} {c : AppCall}
    {args : List Value} (hcall : txn.body = .call c) (hvalue : c.encoding = .value)
    (hwf : ∀ t ∈ m.valueTypes, t.WellFormed)
    (hargs : ∀ e ∈ m.valueTypes.zip args, e.1.HasVariants e.2)
    (h : (m.encodeArgs args).run txn = (.ok (), txn')) :
    args.length = m.valueTypes.length ∧
    (∃ entries, txn' = { txn with body := .call { c with args := m.selector :: entries } } ∧
      entries.length = min args.length 15 ∧
      (args.length ≤ 15 → List.Forall₂ (fun e entry => e.1.encode e.2 = .ok entry)
        (m.valueTypes.zip args) entries) ∧
      (16 ≤ args.length → ∃ single packed, entries = single ++ [packed] ∧
        List.Forall₂ (fun e entry => e.1.encode e.2 = .ok entry)
          ((m.valueTypes.zip args).take 14) single ∧
        (tuple (m.valueTypes.drop 14)).encode (.tuple (args.drop 14)) = .ok packed)) ∧
    ∃ ws, m.decodeArgs txn' = .ok ws ∧
      List.Forall₂ (fun e w => e.1.canonical e.2 = .ok w) (m.valueTypes.zip args) ws := by
  obtain ⟨hlen, entries, hentries, rfl⟩ := of_encodeArgs hcall hvalue h
  obtain ⟨hvaluesLength, htypesLength⟩ := length_entries hlen
  have hcount : entries.length = min args.length 15 := by
    rw [← hentries.length_eq, List.length_zip, hvaluesLength, htypesLength, Nat.min_self]
  obtain ⟨hwf', hargs'⟩ := wellFormed_entries hlen hwf hargs hentries
  obtain ⟨values, hvalues, hcanonical⟩ := exists_decodeEntries (by rw [hvaluesLength, htypesLength])
    hwf' hargs' hentries
  rw [canonicalRow_eq_ok_iff] at hcanonical
  by_cases hmany : 16 ≤ args.length
  -- the last entry is the tuple of all arguments from the fifteenth on
  · rw [zip_entries_of_lt hlen hmany] at hentries hcanonical
    obtain ⟨single, packed, rfl, hsingle, hpacked⟩ := exists_of_forall₂_concat hentries
    obtain ⟨front, last, rfl, hfront, hlast⟩ := exists_of_forall₂_concat hcanonical
    obtain ⟨rest, hrest, rfl⟩ := canonical_tuple_eq_ok_iff.mp hlast
    refine ⟨hlen, ⟨_, rfl, hcount, ?_, ?_⟩, front ++ rest, ?_, ?_⟩
    · intro hfew
      omega
    · intro _
      exact ⟨single, packed, rfl, hsingle, hpacked⟩
    · refine decodeArgs_of_entries hvalue (hcount.trans htypesLength.symm) hvalues ?_
      rw [if_pos (packs_iff.mpr (hlen ▸ hmany)), unpackEntries_concat]
    -- read back, the tuple gives the arguments that were packed
    · have hdrop : (m.valueTypes.drop 14).zip (args.drop 14) = (m.valueTypes.zip args).drop 14 :=
        List.drop_zipWith.symm
      rw [canonicalRow_eq_ok_iff, hdrop] at hrest
      rw [← List.take_append_drop 14 (m.valueTypes.zip args)]
      exact List.rel_append hfront hrest
  · obtain ⟨htypes, hvalues'⟩ := entries_of_le hlen (Nat.le_of_lt_succ (Nat.not_le.mp hmany))
    rw [htypes, hvalues'] at hentries hcanonical
    refine ⟨hlen, ⟨_, rfl, hcount, fun _ => hentries, ?_⟩, values, ?_, hcanonical⟩
    · intro h
      exact absurd h hmany
    · refine decodeArgs_of_entries hvalue (hcount.trans htypesLength.symm) hvalues ?_
      rw [if_neg (by rwa [packs_iff, ← hlen])]

/-- Fifteen bytes and a string, behind a payment that is no entry: the last byte and the string are
    packed. -/
theorem decodeArgs_encodeArgs_packed :
    let m : Method :=
      { name := "store"
        args := .transaction (some .payment) :: List.replicate 15 (.value .byte) ++ [.value .string]
        returns := none }
    let args := List.replicate 15 (Value.uint 7) ++ [.str "ok"]
    let c : AppCall := { app := 5, encoding := .value }
    let entries : List Bytes := List.replicate 14 [7] ++ [[7, 0, 3, 0, 2, 0x6f, 0x6b]]
    let txn' := Transaction.ofCall .zero { c with args := m.selector :: entries }
    (m.encodeArgs args).run (Transaction.ofCall .zero c) = (.ok (), txn') ∧
      ∃ ws, m.decodeArgs txn' = .ok ws ∧
        List.Forall₂ (fun e w => e.1.canonical e.2 = .ok w) (m.valueTypes.zip args) ws := by
  intro m args c entries txn'
  have hwf : ∀ t ∈ m.valueTypes, t.WellFormed := by
    have htypes : ∀ t ∈ m.valueTypes, t = .byte ∨ t = .string := by decide
    intro t ht
    rcases htypes t ht with rfl | rfl
    · exact wellFormed_leaf rfl trivial
    · exact wellFormed_leaf rfl trivial
  have hargs : ∀ e ∈ m.valueTypes.zip args, e.1.HasVariants e.2 := by
    have hvalues : ∀ e ∈ m.valueTypes.zip args,
        e = (.byte, .uint 7) ∨ e = (.string, .str "ok") := by
      decide
    intro e he
    rcases hvalues e he with rfl | rfl
    · exact everywhere_leaf rfl trivial
    · exact everywhere_leaf rfl trivial
  have hencode : (m.encodeArgs args).run (Transaction.ofCall .zero c) = (.ok (), txn') := by
    with_unfolding_all rfl
  obtain ⟨-, -, hdecode⟩ := decodeArgs_encodeArgs rfl rfl hwf hargs hencode
  exact ⟨hencode, hdecode⟩

end Method

end AvmSandbox
