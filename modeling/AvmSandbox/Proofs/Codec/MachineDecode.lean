import AvmSandbox.Proofs.Codec.MachineHeads
import AvmSandbox.Proofs.Codec.StaticLength

/-! # Machine decoding — how far lengths and positions go

    A machine that decodes in 64 bits finds what there is to be decoded, unless
    it comes upon a component of a tuple or struct that is too long.  Then it
    stops, and there are buffers that bring it there.

    * `counted_leaf`: no length is worked out for a leaf;
    * `machineDecode_agrees`: what is decoded;
    * `machineDecode_eq_decode`, `exists_machineDecode_of_encodeUpTo`: types whose
      heads fit;
    * `machineDecode_of_outgrows`: what is not;
    * `lengths_of_parse`: lengths and positions of types that are read. -/

namespace AvmSandbox

namespace Descriptor

open Encoding

variable {t c : Descriptor} {n : Nat} {stops : Prop} {layout : Layout}

/-! ## Types -/

section leaves

variable {α β : Type} {r : Result α} {f : α → Result β} {bytes : Bytes}

theorem counted_refusal (t : Descriptor) (cause : Malformation) :
    Counted (.error (t.refusal cause) : Result α) := by
  simp [Counted, refusal]

theorem counted_expectSize : Counted (t.expectSize n bytes) := by
  rw [expectSize]
  split
  · exact counted_ok ()
  · exact counted_refusal t _

theorem counted_readCounted : Counted (t.readCounted bytes) := by
  rw [readCounted.eq_def]
  split
  · dsimp only
    split
    · exact counted_ok _
    · exact counted_refusal t _
  · exact counted_refusal t _

theorem counted_readAddress : Counted (t.readAddress bytes) := by
  rw [readAddress]
  split
  · exact counted_ok _
  · exact counted_refusal t _

theorem counted_readId : Counted (t.readId bytes) :=
  counted_bind counted_expectSize fun _ => counted_ok _

theorem counted_readIndex : Counted (t.readIndex bytes) := by
  rw [readIndex.eq_def]
  split
  · exact counted_ok _
  · exact counted_refusal t _

theorem counted_lookup (refs : References) (i : UInt8) :
    Counted (refs.accountAt i) ∧ Counted (refs.assetAt i) ∧ Counted (refs.applicationAt i) := by
  refine ⟨?_, ?_, ?_⟩
  · rw [References.accountAt]
    split
    · exact counted_ok _
    · split <;> simp [Counted]
  · rw [References.assetAt]
    split <;> simp [Counted]
  · rw [References.applicationAt]
    split
    · exact counted_ok _
    · split <;> simp [Counted]

/-- No length is worked out for a leaf. -/
theorem counted_leaf (ht : t.isSequence = false) : Counted (t.decodeIn layout bytes) := by
  cases t with
  | staticArray _ _ | dynamicArray _ | tuple _ | struct _ _ => cases ht
  | bool =>
      rw [decodeIn.eq_def]
      dsimp only
      split
      · exact counted_ok _
      · exact counted_refusal bool _
  | string =>
      rw [decodeIn]
      refine counted_bind counted_readCounted fun content => ?_
      split
      · exact counted_ok _
      · exact counted_refusal string _
  | uint _ | ufixed _ _ | byte | staticBytes _ =>
      rw [decodeIn]
      exact counted_bind counted_expectSize fun _ => counted_ok _
  | dynamicBytes =>
      rw [decodeIn]
      exact counted_bind counted_readCounted fun _ => counted_ok _
  | address =>
      rw [decodeIn]
      exact counted_bind counted_readAddress fun _ => counted_ok _
  -- by index a reference is one byte, and looking it up adds nothing
  | account =>
      rw [decodeIn.eq_def]
      cases layout with
      | none => exact counted_bind counted_readAddress fun _ => counted_ok _
      | some refs =>
          exact counted_bind counted_readIndex fun i =>
            counted_bind (counted_lookup refs i).1 fun _ => counted_ok _
  | asset =>
      rw [decodeIn.eq_def]
      cases layout with
      | none => exact counted_bind counted_readId fun _ => counted_ok _
      | some refs =>
          exact counted_bind counted_readIndex fun i =>
            counted_bind (counted_lookup refs i).2.1 fun _ => counted_ok _
  | application =>
      rw [decodeIn.eq_def]
      cases layout with
      | none => exact counted_bind counted_readId fun _ => counted_ok _
      | some refs =>
          exact counted_bind counted_readIndex fun i =>
            counted_bind (counted_lookup refs i).2.2 fun _ => counted_ok _

/-- A leaf is decoded as ever. -/
theorem machineDecode_leaf (ht : t.isSequence = false) (bytes : Bytes) :
    AgreesUnless stops (t.machineDecode layout bytes) (t.decodeIn layout bytes) := by
  have hsame : t.machineDecode layout bytes = t.decodeIn layout bytes := by
    cases t with
    | staticArray _ _ | dynamicArray _ | tuple _ | struct _ _ => cases ht
    | _ => rw [machineDecode] <;> simp
  exact .inl ⟨hsame, hsame ▸ counted_leaf ht⟩

end leaves

/-- The check on a static array comes out the same, unless the length of its elements stops the
    machine. -/
theorem machineLeast_agrees (hstops : t.isDynamic = false → Oversums false t → stops)
    (count : Nat) {limit : Nat} (hlimit : 2 * limit < Limits.length) :
    (∃ least, t.machineLeast count = .ok least ∧ (limit < least ↔ limit < t.leastRow count)) ∨
      stops ∧ t.machineLeast count = .error .lengthOverflow := by
  have hlength : Limits.length = 2 ^ 64 := rfl
  have hproduct : ∀ a, limit < mulLengths a count ↔ limit < a * count := by
    intro a
    rw [mulLengths]
    omega
  rw [machineLeast, leastRow]
  cases hb : t.isBool with
  | true => exact .inl ⟨_, rfl, Iff.rfl⟩
  | false =>
      cases hd : t.isDynamic with
      | true => exact .inl ⟨_, rfl, hproduct 2⟩
      | false =>
          cases hmachine : t.machineLength false with
          | error e =>
              obtain ⟨rfl, hover⟩ := machineLength_eq_error_iff.mp hmachine
              exact .inr ⟨hstops hd hover, rfl⟩
          | ok found =>
              have hfound : found = t.fixedLength? := machineLength_eq_ok hmachine
              exact .inl ⟨_, rfl, by rw [← hfound]; exact hproduct _⟩

/-- **WHAT A MACHINE DECODES** is what there is, or it stops at a length or position where some
    heads do not fit. -/
theorem machineDecode_agrees {bytes : Bytes} (ht : t.Permitted)
    (hbytes : 2 * bytes.length < Limits.length) :
    AgreesUnless (¬t.HeadsFit) (t.machineDecode layout bytes) (t.decodeIn layout bytes) := by
  induction t using Descriptor.inductOn generalizing bytes with
  | step t ih =>
      -- components lie within the bytes, which are short enough for them too
      have hinner : ∀ c ∈ t.inner, ∀ raw : Bytes, raw.length ≤ bytes.length →
          AgreesUnless (¬t.HeadsFit) (c.machineDecode layout raw) (c.decodeIn layout raw) := by
        intro c hc raw hraw
        exact (ih c hc (ht.inside hc) (by omega)).mono fun hfit h => hfit (h.inside hc)
      cases t with
      | tuple ts =>
          rw [machineDecode, decodeIn]
          exact (machineRow_agrees _ hbytes hinner (fitsFrom_of_components rfl)).map _
      | struct name fs =>
          rw [machineDecode, decodeIn, machineFields_eq, fieldSlots_eq]
          exact (machineRow_agrees _ hbytes hinner (fitsFrom_of_components rfl)).map _
      | staticArray c count =>
          have hself : c ∈ (staticArray c count).inner := List.mem_singleton_self c
          have hover : ∀ indexed, c.isDynamic = false → Oversums indexed c →
              ¬(staticArray c count).HeadsFit :=
            fun indexed hd h hfit => hfit.here.elements c rfl hd indexed h
          rw [machineDecode, decodeIn]
          by_cases hcount : count > 8 * Limits.box
          · rw [if_pos hcount, if_pos (.inl hcount)]
            exact .error (refusal_ne _ _)
          · rw [if_neg hcount]
            -- the machine may stop at the least length, before it reads anything
            obtain ⟨least, hleast, hiff⟩ | ⟨hstops, hleast⟩ :=
              machineLeast_agrees (hover false) count hbytes
            · rw [hleast]
              dsimp only
              rw [ok_bind]
              by_cases hshort : bytes.length < least
              · rw [if_pos hshort, if_pos (.inr (hiff.mp hshort))]
                exact .error (refusal_ne _ _)
              · rw [if_neg hshort, if_neg (not_or.mpr ⟨hcount, mt hiff.mpr hshort⟩)]
                exact (machineElements_agrees _ (ht.inside hself).here hbytes (hinner c hself)
                  (hover layout.isSome) count).map _
            · rw [hleast]
              exact .inr ⟨hstops, rfl⟩
      | dynamicArray c =>
          have hself : c ∈ (dynamicArray c).inner := List.mem_singleton_self c
          cases bytes with
          | nil => exact .error (refusal_ne _ _)
          | cons hi bytes =>
              cases bytes with
              | nil => exact .error (refusal_ne _ _)
              | cons lo body =>
                  rw [List.length_cons, List.length_cons] at hbytes
                  rw [machineDecode, decodeIn]
                  refine (machineElements_agrees _ (ht.inside hself).here (by omega) ?_
                    (fun hd h hfit => hfit.here.elements c rfl hd layout.isSome h) _).map _
                  intro raw hraw
                  exact hinner c hself raw (by simp only [List.length_cons]; omega)
      | _ => exact machineDecode_leaf rfl bytes

/-- **WHERE THE HEADS FIT THE MACHINE DECODES**, so that what holds of decoding holds of it. -/
theorem machineDecode_eq_decode {bytes : Bytes} (ht : t.Permitted) (hfit : t.HeadsFit)
    (hbytes : 2 * bytes.length < Limits.length) : t.machineDecode none bytes = t.decode bytes := by
  have hagrees : AgreesUnless (¬t.HeadsFit) (t.machineDecode none bytes) (t.decodeIn none bytes) :=
    machineDecode_agrees ht hbytes
  rcases hagrees with ⟨heq, -⟩ | ⟨hheads, -⟩
  · exact heq
  · exact absurd hfit hheads

/-- Whatever is encoded as a type whose heads fit comes back from the machine, and encodes to the
    same bytes again. -/
theorem exists_machineDecode_of_encodeUpTo {max : Nat} {v : Value} {bytes : Bytes}
    (ht : t.Permitted) (hwf : t.WellFormed) (hfit : t.HeadsFit)
    (hbytes : 2 * bytes.length < Limits.length) (h : t.encodeUpTo max v = .ok bytes) :
    ∃ w, t.machineDecode none bytes = .ok w ∧ t.encodeUpTo max w = .ok bytes ∧
      (t.HasVariants v → t.canonical v = .ok w) := by
  rw [machineDecode_eq_decode ht hfit hbytes]
  exact exists_decode_of_encodeUpTo hwf h

/-- **A TUPLE OR STRUCT STOPS THE MACHINE** at a component that is too long, on every buffer that
    ends in front of it. -/
theorem machineDecode_of_outgrows {m : Nat} {bytes : Bytes} (ht : t.Permitted)
    (hwf : t.WellFormed) (h : t.Outgrows false m) (hbytes : bytes.length = m) :
    t.machineDecode none bytes = .error .lengthOverflow := by
  obtain ⟨front, c, rest, hts, hm, hpos, hc⟩ := h
  -- any bytes of the right length decode, so nothing else can refuse the row
  have hread : ∀ x ∈ front, ∀ raw : Bytes, 2 * raw.length < Limits.length →
      x.fixedLength? = some raw.length →
        (∃ v, x.machineDecode none raw = .ok v) ∨
          x.machineDecode none raw = .error .lengthOverflow := by
    intro x hx raw hraw hn
    have hinner : x ∈ t.inner := by
      rw [inner_of_components hts]
      exact List.mem_append_left _ hx
    obtain ⟨v, hv⟩ := exists_decode_of_length (hwf.inside hinner) hn
    have hagrees : AgreesUnless (¬x.HeadsFit) (x.machineDecode none raw) (x.decodeIn none raw) :=
      machineDecode_agrees (ht.inside hinner) hraw
    rcases hagrees with ⟨heq, -⟩ | ⟨-, hstop⟩
    · exact .inl ⟨v, heq.trans hv⟩
    · exact .inr hstop
  have hrow : ∀ refuse, machineRow refuse bytes (machineSlots none (front ++ c :: rest)) =
      .error .lengthOverflow := by
    intro refuse
    rw [← Nat.zero_add m] at hpos hc
    have hheads : readHeads refuse 0 bytes ⟨0, 0⟩ []
        (fitSlots [] 0 0 (machineSlots none (front ++ c :: rest))) = .error .lengthOverflow :=
      readHeads_stops hread [] hm (by omega) hpos hc hbytes rfl
    rw [machineRow, readRow, hheads]
  cases t with
  | tuple ts =>
      obtain rfl := Option.some.inj hts
      rw [machineDecode, hrow]
      rfl
  | struct name fs =>
      rw [machineDecode, machineFields_eq, Option.some.inj hts, hrow]
      rfl
  | _ => cases hts

/-! ## Types that are read -/

/-- **LENGTHS AND POSITIONS NEAR THE LIMIT** of 64 bits, for every type that a text names.  A length
    that the machine finds is the exact length and below the limit.  Every static type has an exact
    length, which all its encodings take, and the machine finds none when it is beyond the limit,
    unless it stops at a sum that is: that is where it stops, and nowhere else.  A buffer is decoded
    to what it encodes unless the machine stops, which it does not do where the heads fit and which
    it does at a component that is too long. -/
theorem lengths_of_parse {text : String} (h : parse text = .ok t) :
    (∀ indexed n, t.machineLength indexed = .ok (some n) →
      n < Limits.length ∧ t.exactLength indexed = some n) ∧
    (t.isDynamic = false → ∀ indexed, ∃ n, t.exactLength indexed = some n ∧
      (∀ v before bytes after, before.isSome = indexed →
        Yields (t.encodeIn v) before bytes after → bytes.length = n) ∧
      (Limits.length ≤ n → ¬Oversums indexed t → t.machineLength indexed = .ok none)) ∧
    (∀ indexed e, t.machineLength indexed = .error e ↔
      e = .lengthOverflow ∧ Oversums indexed t) ∧
    (∀ layout bytes, 2 * bytes.length < Limits.length →
      (Counted (t.machineDecode layout bytes) →
        t.machineDecode layout bytes = t.decodeIn layout bytes) ∧
      (t.HeadsFit → Counted (t.machineDecode layout bytes))) ∧
    (t.WellFormed → ∀ m, t.Outgrows false m → ∀ bytes : Bytes, bytes.length = m →
      t.machineDecode none bytes = .error .lengthOverflow) := by
  have ht := permitted_of_parse h
  have hfound : ∀ indexed n, t.machineLength indexed = .ok (some n) →
      n < Limits.length ∧ t.exactLength indexed = some n := fun indexed n hn =>
    ⟨machineLength_lt ht.here hn, exactLength_of_length? (machineLength_eq_ok hn).symm⟩
  refine ⟨hfound, ?_, fun _ _ => machineLength_eq_error_iff, ?_,
    fun hwf m hm bytes hbytes => machineDecode_of_outgrows ht hwf hm hbytes⟩
  · intro hd indexed
    cases hn : t.exactLength indexed with
    | none =>
        rw [exactLength_eq_none_iff.mp hn] at hd
        cases hd
    | some n =>
        refine ⟨n, rfl, ?_, ?_⟩
        · rintro v before bytes after rfl hyields
          rw [exactLength_of_yields hd hyields] at hn
          exact Option.some.inj hn
        · intro hlong hsums
          -- a length that the machine finds is below the bound, so it finds none
          cases hmachine : t.machineLength indexed with
          | error e => exact absurd (machineLength_eq_error_iff.mp hmachine).2 hsums
          | ok found =>
              cases found with
              | none => rfl
              | some m =>
                  obtain ⟨hlt, hm⟩ := hfound indexed m hmachine
                  rw [hn] at hm
                  cases hm
                  omega
  · intro layout bytes hbytes
    have hagrees : AgreesUnless (¬t.HeadsFit) (t.machineDecode layout bytes)
        (t.decodeIn layout bytes) := machineDecode_agrees ht hbytes
    rcases hagrees with ⟨heq, hcounted⟩ | ⟨hheads, hstop⟩
    · exact ⟨fun _ => heq, fun _ => hcounted⟩
    · exact ⟨fun hcounted => absurd hstop hcounted, fun hfit => absurd hfit hheads⟩

/-- The greatest length there is: a byte string, and a boolean behind it whose position no buffer
    can bring up. -/
theorem lengths_of_parse_greatest :
    let greatest := tuple [staticBytes 18446744073709551614, bool]
    parse "(byte[18446744073709551614],bool)" = .ok greatest ∧
      greatest.machineLength false = .ok (some (Limits.length - 1)) ∧
      (∀ v bytes after, Yields (greatest.encodeIn v) none bytes after →
        bytes.length = Limits.length - 1) ∧
      ∀ layout bytes, 2 * bytes.length < Limits.length →
        greatest.machineDecode layout bytes = greatest.decodeIn layout bytes := by
  intro greatest
  have hparse : parse "(byte[18446744073709551614],bool)" = .ok greatest := by decide +kernel
  have hlength : greatest.machineLength false = .ok (some (Limits.length - 1)) := by
    decide +kernel
  have hfit : greatest.HeadsFit := by
    refine .intro ⟨?_, ?_⟩ ?_
    · intro c hc
      cases hc
    · rintro indexed m ⟨front, c, rest, hts, hm, hpos, -, htoo⟩
      cases front with
      | nil =>
          cases hts
          cases hm
          rcases htoo with hover | ⟨w, hw, hle⟩
          · exact not_oversums_of_isMeasured rfl hover
          · cases hw
            exact absurd hle (by decide)
      | cons t front =>
          cases front with
          | nil =>
              cases hts
              cases hm
              exact absurd hpos (by decide)
          | cons u front =>
              obtain ⟨-, hbehind⟩ := List.append_eq_nil_iff.mp
                (List.cons.inj (List.cons.inj (Option.some.inj hts)).2).2.symm
              cases hbehind
    · intro c hc
      rcases List.mem_pair.mp hc with rfl | rfl
      · exact headsFit_of_arrays (.of_leaf rfl rfl)
      · exact headsFit_of_arrays (.of_leaf rfl rfl)
  obtain ⟨hfound, hstatic, -, hread, -⟩ := lengths_of_parse hparse
  obtain ⟨n, hn, hencoded, -⟩ := hstatic rfl false
  obtain rfl : n = Limits.length - 1 := by
    rw [(hfound false _ hlength).2] at hn
    exact (Option.some.inj hn).symm
  refine ⟨hparse, hlength, fun v bytes after h => hencoded v none bytes after rfl h, ?_⟩
  intro layout bytes hbytes
  obtain ⟨hsame, hcounted⟩ := hread layout bytes hbytes
  exact hsame (hcounted hfit)

/-- A product that is too long gives no length, but a sum that is one byte too long stops the
    machine: as the length of a tuple, and as the position behind a component of one. -/
theorem lengths_not_bounded :
    (¬∀ text t n, parse text = .ok t → t.isDynamic = false → t.exactLength false = some n →
      Limits.length ≤ n → t.machineLength false = .ok none) ∧
    ¬∀ text t bytes, parse text = .ok t → Counted (t.machineDecode none bytes) := by
  constructor
  · intro h
    have hnone := h "(byte[18446744073709551615],byte)"
      (tuple [staticBytes 18446744073709551615, byte]) Limits.length (by decide +kernel) rfl
      (by decide +kernel) (Nat.le_refl _)
    have hstop : (tuple [staticBytes 18446744073709551615, byte]).machineLength false =
        .error .lengthOverflow := by decide +kernel
    rw [hstop] at hnone
    cases hnone
  · intro h
    refine h "(byte,byte[18446744073709551615])" (tuple [byte, staticBytes 18446744073709551615])
      [0] (by decide +kernel) ?_
    decide +kernel

end Descriptor

end AvmSandbox
