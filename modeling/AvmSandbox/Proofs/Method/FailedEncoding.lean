import AvmSandbox.Proofs.Codec.Mentions
import AvmSandbox.Proofs.Method.Arguments

/-! # Failed encodings — what they leave in the call

    The arguments of a call are assigned when all of them are encoded, so a
    failure leaves the old ones.  The references in those that were encoded by
    then, however, have been looked up and stay in the arrays of the call, and a
    lookup that comes to an index too large has appended its resource first.

    * `Method.entries` and `Method.mentions`: what is encoded for arguments, and
      the references in it;
    * `Method.StopsAt` and `Method.exists_stopsAt`: how far a failed encoding has
      come;
    * `Transaction.noting_eq_self_iff`: when references in the arrays are not new;
    * `Transaction.failed_encoding_notes`: what a failed encoding and a failed
      lookup change. -/

namespace AvmSandbox

open References (note)

/-! ## References that are noted in a call -/

namespace Transaction

variable {header : Header} {c : AppCall} {r : Resource} {rs : List Resource}

/-- A call in which resources have been looked up. -/
def noting (header : Header) (c : AppCall) (rs : List Resource) : Transaction :=
  ⟨header, .call (c.setReferences (rs.foldl note (c.references header.sender)))⟩

/-- A call stays as it was when it has all of the resources, and only then. -/
theorem noting_eq_self_iff :
    noting header c rs = ⟨header, .call c⟩ ↔ ∀ r ∈ rs, (c.references header.sender).Knows r := by
  rw [← References.foldl_note_eq_self_iff]
  have hgrows := References.grows_foldl_note (c.references header.sender) rs
  constructor
  · intro h
    obtain ⟨-, hbody⟩ := Transaction.mk.inj h
    have hcall := Body.call.inj hbody
    rw [← references_setReferences hgrows, hcall]
  · intro h
    rw [noting, h]
    rfl

/-- A lookup fails when its index does not fit a byte, and has noted its resource then. -/
theorem run_indexOf_eq_error {fault : Fault} {t' : Transaction}
    (h : (indexOf r).run ⟨header, .call c⟩ = (.error fault, t')) :
    (∃ n, Limits.oneByte < n ∧ fault = .unresolvedReference (.indexTooLarge n)) ∧
      t' = noting header c [r] := by
  rw [run_indexOf, References.run_indexOf_snd] at h
  obtain ⟨hfault, rfl⟩ := Prod.mk.inj h
  exact ⟨References.run_indexOf_eq_error hfault, rfl⟩

end Transaction

/-! ## Entries -/

namespace Method

open Descriptor Encoding

variable {m : Method} {args : List Value} {fault : Fault}

/-- What is encoded for arguments, each with its type. -/
def entries (m : Method) (args : List Value) : List (Descriptor × Value) :=
  (entryTypes m.valueTypes).zip (entryValues args)

/-- The references in arguments, in order. -/
def mentions (m : Method) (args : List Value) : List Resource :=
  allMentions (m.valueTypes.zip args)

/-- Packing the last arguments does not move a reference. -/
theorem allMentions_entries (hlen : m.valueTypes.length = args.length) :
    allMentions (m.entries args) = m.mentions args := by
  rw [entries, mentions]
  generalize m.valueTypes = ts at hlen
  by_cases hmany : 16 ≤ args.length
  · have hpacked : (tuple (ts.drop 14)).mentions (.tuple (args.drop 14))
        = allMentions ((ts.zip args).drop 14) := by
      have hitems : (tuple (ts.drop 14)).rowItems (.tuple (args.drop 14)) = .ok (args.drop 14) := by
        refine checked_eq_ok_iff.mpr ⟨rfl, ?_⟩
        rw [List.length_drop, List.length_drop, hlen]
      have hzip : (ts.drop 14).zip (args.drop 14) = (ts.zip args).drop 14 := List.drop_zipWith.symm
      rw [Descriptor.mentions, hitems, ← hzip]
      exact rowMentions_eq _ _
    rw [zip_entries_of_lt hlen.symm hmany, allMentions_append, allMentions_cons, allMentions_nil,
      List.append_nil, hpacked, ← allMentions_append, List.take_append_drop]
  · obtain ⟨htypes, hvalues⟩ :=
      entries_of_le hlen.symm (Nat.le_of_lt_succ (Nat.not_le.mp hmany))
    rw [htypes, hvalues]

/-- Entries are looked into one after the other. -/
theorem looksUp_encodeEntries (ts : List Descriptor) (vs : List Value) :
    LooksUp (allMentions (ts.zip vs)) (encodeEntries ts vs) := by
  induction ts generalizing vs with
  | nil =>
      rw [List.zip_nil_left, allMentions_nil, encodeEntries]
      · exact inherited_silent.pure _
      · simp
  | cons t ts ih =>
      cases vs with
      | nil =>
          rw [List.zip_nil_right, allMentions_nil, encodeEntries]
          · exact inherited_silent.pure _
          · simp
      | cons v vs =>
          rw [List.zip_cons_cons, allMentions_cons, encodeEntries]
          refine looksUp_bind (looksUp_encodeWithin t Limits.byteString v) fun entry => ?_
          exact looksUp_bind_silent (ih vs) fun more => inherited_silent.pure _

/-- By value nothing is noted. -/
theorem after_eq_none {ts : List Descriptor} {vs : List Value} {result : Result (List Bytes)}
    {after : Layout} (h : (encodeEntries ts vs).run none = (result, after)) : after = none := by
  obtain ⟨asked, -, hafter, -⟩ := looksUp_encodeEntries ts vs none
  rw [h] at hafter
  exact hafter

/-- How far an encoding of entries has come: those in front are encoded, and the next one fails. -/
structure StopsAt (entries : List (Descriptor × Value)) (before : Layout) (fault : Fault)
    (after : Layout) (encoded : List (Descriptor × Value)) (failing : Descriptor × Value) :
    Prop where
  split : encoded ++ [failing] <+: entries
  stops : ∃ bytes middle,
    Yields (encodeEntries (encoded.map Prod.fst) (encoded.map Prod.snd)) before bytes middle ∧
      (failing.1.encodeWithin Limits.byteString failing.2).run middle = (.error fault, after)

/-- **A FAILED ENCODING STOPS AT AN ENTRY**, by induction on the entries. -/
theorem exists_stopsAt {ts : List Descriptor} {vs : List Value} {before after : Layout}
    (h : (encodeEntries ts vs).run before = (.error fault, after)) :
    ∃ encoded failing, StopsAt (ts.zip vs) before fault after encoded failing := by
  induction ts generalizing vs before with
  | nil =>
      rw [encodeEntries] at h
      · cases h
      · simp
  | cons t ts ih =>
      cases vs with
      | nil =>
          rw [encodeEntries] at h
          · cases h
          · simp
      | cons v vs =>
          rw [encodeEntries, Action.run_bind] at h
          rcases hfirst : (t.encodeWithin Limits.byteString v).run before with ⟨e | entry, middle⟩
          · rw [hfirst] at h
            cases h
            -- the first entry fails, and nothing has been encoded
            refine ⟨[], (t, v), List.cons_prefix_cons.mpr ⟨rfl, List.nil_prefix⟩, [], before, ?_,
              hfirst⟩
            rw [List.map_nil, List.map_nil, encodeEntries]
            · rfl
            · simp
          · rw [hfirst] at h
            dsimp only at h
            rw [Action.run_bind] at h
            rcases hothers : (encodeEntries ts vs).run middle with ⟨e | more, last⟩
            · rw [hothers] at h
              cases h
              -- the first entry is encoded, and a later one fails
              obtain ⟨encoded, failing, hsplit, bytes, stop, hencoded, hfails⟩ := ih hothers
              refine ⟨(t, v) :: encoded, failing, ?_, entry :: bytes, stop, ?_, hfails⟩
              · exact List.cons_prefix_cons.mpr ⟨rfl, hsplit⟩
              · rw [List.map_cons, List.map_cons, encodeEntries, yields_bind]
                refine ⟨entry, middle, hfirst, ?_⟩
                rw [yields_bind]
                exact ⟨bytes, stop, hencoded, rfl⟩
            · rw [hothers] at h
              cases h

theorem StopsAt.prefix_allMentions {entries encoded : List (Descriptor × Value)}
    {failing : Descriptor × Value} {before after : Layout}
    (h : StopsAt entries before fault after encoded failing) :
    allMentions (encoded ++ [failing]) <+: allMentions entries := by
  obtain ⟨others, rfl⟩ := h.split
  rw [allMentions_append (encoded ++ [failing])]
  exact List.prefix_append _ _

/-- What was looked up by then: the references in the entries that were encoded, and the first ones
    of the entry that failed. -/
theorem StopsAt.exists_asked {entries encoded : List (Descriptor × Value)}
    {failing : Descriptor × Value} {before after : Layout}
    (h : StopsAt entries before fault after encoded failing) :
    ∃ asked, after = noteAll asked before ∧ allMentions encoded <+: asked ∧
      asked <+: allMentions (encoded ++ [failing]) := by
  obtain ⟨bytes, middle, hencoded, hfails⟩ := h.stops
  obtain ⟨first, -, hmiddle, hall⟩ :=
    looksUp_encodeEntries (encoded.map Prod.fst) (encoded.map Prod.snd) before
  have hencoded : (encodeEntries (encoded.map Prod.fst) (encoded.map Prod.snd)).run before
      = (.ok bytes, middle) := hencoded
  rw [hencoded] at hmiddle hall
  obtain rfl := hall bytes rfl
  obtain ⟨more, hmore, hafter, -⟩ :=
    looksUp_encodeWithin failing.1 Limits.byteString failing.2 middle
  rw [hfails] at hafter
  have hzip : (encoded.map Prod.fst).zip (encoded.map Prod.snd) = encoded :=
    (List.zip_of_prod rfl rfl).symm
  rw [hzip] at hmiddle
  have hmiddle : middle = noteAll (allMentions encoded) before := hmiddle
  refine ⟨allMentions encoded ++ more, ?_, List.prefix_append _ _, ?_⟩
  · rw [noteAll_append, ← hmiddle]
    exact hafter
  · rw [allMentions_append, allMentions_cons, allMentions_nil, List.append_nil]
    exact (List.prefix_append_right_inj _).mpr hmore

/-- The arguments of a call are encoded where there are as many as the method takes, and the call
    takes over what was looked up. -/
theorem run_encodeArgs_eq_error {header : Header} {c : AppCall} {t' : Transaction}
    (h : (m.encodeArgs args).run ⟨header, .call c⟩ = (.error fault, t')) :
    (m.valueTypes.length ≠ args.length ∧ t' = ⟨header, .call c⟩) ∨
      m.valueTypes.length = args.length ∧ ∃ after,
        (encodeEntries (entryTypes m.valueTypes) (entryValues args)).run
          (Transaction.layout ⟨header, .call c⟩) = (.error fault, after) ∧
        t' = Transaction.setLayout ⟨header, .call c⟩ after := by
  rw [encodeArgs] at h
  dsimp only at h
  rw [Action.run_unless] at h
  by_cases hlen : m.valueTypes.length = args.length
  · rw [if_neg (not_not.mpr hlen), Action.run_bind, Transaction.run_embed] at h
    refine Or.inr ⟨hlen, ?_⟩
    rcases hrun : (encodeEntries (entryTypes m.valueTypes) (entryValues args)).run
      (Transaction.layout ⟨header, .call c⟩) with ⟨e | entries, after⟩
    · rw [hrun] at h
      cases h
      exact ⟨after, rfl, rfl⟩
    · -- a call takes its arguments over without fail
      rw [hrun] at h
      cases after with
      | none => cases h
      | some refs => cases h
  · rw [if_pos hlen] at h
    cases h
    exact Or.inl ⟨hlen, rfl⟩

end Method

namespace Transaction

open Method Descriptor

/-- **A FAILED ENCODING LEAVES ITS LOOKUPS BEHIND** and changes nothing else: the arguments stay,
    and to the arrays are added the references in the arguments that were encoded and the first
    ones in the argument that failed.  So the call stays as it was iff it had all of these, and in
    any case by value and where the number of arguments is wrong.  A lookup whose index is too
    large leaves its resource behind, too. -/
theorem failed_encoding_notes (header : Header) (c : AppCall) :
    let t : Transaction := ⟨header, .call c⟩
    let refs := c.references header.sender
    (∀ (m : Method) (args : List Value) (fault : Fault) (t' : Transaction),
      (m.encodeArgs args).run t = (.error fault, t') →
      ∃ asked, asked <+: m.mentions args ∧ t' = noting header c asked ∧
        (t' = t ↔ ∀ r ∈ asked, refs.Knows r) ∧
        (c.encoding = .value ∨ m.valueTypes.length ≠ args.length → asked = []) ∧
        (c.encoding = .index → m.valueTypes.length = args.length →
          ∃ after encoded failing,
            StopsAt (m.entries args) (some refs) fault after encoded failing ∧
            allMentions encoded <+: asked ∧ asked <+: allMentions (encoded ++ [failing]))) ∧
    ∀ (r : Resource) (fault : Fault) (t' : Transaction),
      (indexOf r).run t = (.error fault, t') →
      (∃ n, Limits.oneByte < n ∧ fault = .unresolvedReference (.indexTooLarge n)) ∧
        t' = noting header c [r] ∧ (t' = t ↔ refs.Knows r) := by
  intro t refs
  have hnothing : noting header c [] = t ↔ ∀ r ∈ [], refs.Knows r := noting_eq_self_iff
  constructor
  · intro m args fault t' h
    -- the number of arguments is wrong, or one of them cannot be encoded
    rcases run_encodeArgs_eq_error h with ⟨hlen, rfl⟩ | ⟨hlen, after, hrun, rfl⟩
    · refine ⟨[], List.nil_prefix, rfl, hnothing, fun _ => rfl, ?_⟩
      intro _ hlen'
      exact absurd hlen' hlen
    · cases hencoding : c.encoding with
      | value =>
          rw [layout_of_value rfl hencoding] at hrun
          obtain rfl := after_eq_none hrun
          refine ⟨[], List.nil_prefix, rfl, hnothing, fun _ => rfl, ?_⟩
          intro hindex
          cases hindex
      | index =>
          rw [layout_of_index rfl hencoding] at hrun
          -- by index, what was asked for up to the failing argument is noted
          obtain ⟨encoded, failing, hstops⟩ := exists_stopsAt hrun
          obtain ⟨asked, rfl, hfirst, hlast⟩ := hstops.exists_asked
          refine ⟨asked, ?_, rfl, noting_eq_self_iff, ?_, ?_⟩
          · rw [← allMentions_entries hlen]
            exact hlast.trans hstops.prefix_allMentions
          · rintro (hvalue | hlen')
            · cases hvalue
            · exact absurd hlen hlen'
          · intro _ _
            exact ⟨_, encoded, failing, hstops, hfirst, hlast⟩
  · intro r fault t' h
    obtain ⟨hfault, rfl⟩ := run_indexOf_eq_error h
    refine ⟨hfault, rfl, ?_⟩
    rw [noting_eq_self_iff, List.forall_mem_singleton]

/-- A method with an asset and a number of one byte. -/
def stakeMethod : Method :=
  ⟨"stake", [.value .asset, .value (.uint 8)], none, [.noOp], .disallow, false⟩

/-- Behind an asset that is listed the number that does not fit changes nothing, and a lookup that
    fails lists its asset. -/
theorem failed_encoding_notes_stake :
    let listing : AppCall := { app := 7, assets := [5] }
    let full : AppCall := { app := 7, assets := (List.range 256).map UInt64.ofNat }
    (stakeMethod.encodeArgs [.asset 5, .uint 300]).run ⟨{}, .call listing⟩
        = (.error (.overflow 255), ⟨{}, .call listing⟩) ∧
      ((indexOf (.asset 900)).run ⟨{}, .call full⟩).2
        = ⟨{}, .call { full with assets := full.assets ++ [900] }⟩ := by
  intro listing full
  constructor
  · have hrun : ((stakeMethod.encodeArgs [.asset 5, .uint 300]).run ⟨{}, .call listing⟩).1
        = .error (.overflow 255) := rfl
    obtain ⟨asked, hasked, -, hiff, -⟩ := (failed_encoding_notes {} listing).1 stakeMethod
      [.asset 5, .uint 300] (.overflow 255) _ (Prod.ext hrun rfl)
    have hmentions : stakeMethod.mentions [.asset 5, .uint 300] = [.asset 5] := rfl
    refine Prod.ext hrun (hiff.mpr ?_)
    intro r hr
    have hlisted := hasked.subset hr
    rw [hmentions, List.mem_singleton] at hlisted
    rw [hlisted]
    exact List.mem_singleton_self 5
  · have hfault : ((indexOf (.asset 900)).run ⟨{}, .call full⟩).1
        = .error (.unresolvedReference (.indexTooLarge 256)) := by decide +kernel
    have hnew : ¬(full.references .zero).Knows (.asset 900) := by decide +kernel
    rcases hrun : (indexOf (.asset 900)).run ⟨{}, .call full⟩ with ⟨result, t'⟩
    rw [hrun] at hfault
    obtain rfl : result = _ := hfault
    obtain ⟨-, hleft, -⟩ := (failed_encoding_notes {} full).2 (.asset 900) _ t' hrun
    rw [hleft, noting, List.foldl_cons, List.foldl_nil, References.note_of_not_knows hnew]
    rfl

/-- With the asset not listed yet it is listed behind the failure, and where all indexes are taken
    behind the lookup. -/
theorem failed_encoding_changes_call :
    let fresh : AppCall := { app := 7 }
    let full : AppCall := { app := 7, assets := (List.range 256).map UInt64.ofNat }
    (∃ t', (stakeMethod.encodeArgs [.asset 5, .uint 300]).run ⟨{}, .call fresh⟩
      = (.error (.overflow 255), t') ∧ t' ≠ ⟨{}, .call fresh⟩) ∧
    ∃ t', (indexOf (.asset 900)).run ⟨{}, .call full⟩
      = (.error (.unresolvedReference (.indexTooLarge 256)), t') ∧ t' ≠ ⟨{}, .call full⟩ := by
  intro fresh full
  constructor
  · refine ⟨noting {} fresh [.asset 5], rfl, ?_⟩
    rw [Ne, noting_eq_self_iff, List.forall_mem_singleton]
    decide
  · have hfault : ((References.indexOf (.asset 900)).run (full.references ({} : Header).sender)).1
        = .error (.unresolvedReference (.indexTooLarge 256)) := by decide +kernel
    refine ⟨noting {} full [.asset 900], ?_, ?_⟩
    · rw [run_indexOf, References.run_indexOf_snd, hfault]
      rfl
    · rw [Ne, noting_eq_self_iff, List.forall_mem_singleton]
      decide +kernel

end Transaction

end AvmSandbox
