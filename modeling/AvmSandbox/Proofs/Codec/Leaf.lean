import AvmSandbox.Proofs.Codec.Reference
import AvmSandbox.Proofs.Codec.Sequence
import Mathlib.Data.List.Induction

/-! # Leaves — values that are no sequences

    A leaf has its bytes by itself: a number its digits, a text or byte string
    of free length its count and its content.  Only references depend on the
    layout.

    * `leafBytes` and `LeafFits` say what is written for a leaf and when;
    * `settle_leaf`: the encoder takes other values too, but only such as stand
      for one that decoding produces;
    * `decodeIn_leaf` and `leaf_of_decodeIn`: leaves are read back, and nothing
      else is. -/

namespace AvmSandbox

/-- A content behind its count. -/
def counted (content : Bytes) : Bytes := Bytes.ofNat 2 content.length ++ content

/-- Content is counted when its length fits two bytes. -/
theorem encodeCounted_eq_ok_iff {content bytes : Bytes} :
    encodeCounted content = .ok bytes ↔
      content.length ≤ Limits.twoByte ∧ bytes = counted content := by
  rw [encodeCounted, bind_eq_ok_iff]
  simp only [pure_eq_ok_iff, twoBytes_eq_ok_iff]
  constructor
  · rintro ⟨count, ⟨hle, rfl⟩, rfl⟩
    exact ⟨hle, rfl⟩
  · rintro ⟨hle, rfl⟩
    exact ⟨_, ⟨hle, rfl⟩, rfl⟩

/-- A number is written when it fits its bits. -/
theorem encodeUint_eq_ok_iff {bits n : Nat} {bytes : Bytes} :
    encodeUint bits n = .ok bytes ↔ n < 2 ^ bits ∧ bytes = Bytes.ofNat (bits / 8) n := by
  rw [encodeUint]
  split
  · next h =>
      have h : n < 2 ^ bits := h
      simp [h, eq_comm]
  · next h =>
      have h : ¬n < 2 ^ bits := h
      simp [h]

namespace Descriptor

open Encoding

/-! ## What is written -/

/-- The bytes of a leaf, with references by value. -/
def leafBytes : Descriptor → Value → Bytes
  | bool, .bool b => [if b then 0x80 else 0]
  | uint bits, .uint n | ufixed bits _, .uint n => Bytes.ofNat (bits / 8) n
  | byte, .uint n => Bytes.ofNat 1 n
  | address, .address a | account, .account a => a.bytes
  | string, .str s => counted (Bytes.ofText s)
  | dynamicBytes, .bytes content => counted content
  | staticBytes _, .bytes content => content
  | asset, .asset id | application, .application id => Bytes.ofUInt64 id
  | _, _ => []

/-- Whether a number fits its width, and a count its two bytes. -/
def LeafFits : Descriptor → Value → Prop
  | uint bits, .uint n | ufixed bits _, .uint n => n < 2 ^ bits
  | byte, .uint n => n < 2 ^ 8
  | string, .str s => (Bytes.ofText s).length ≤ Limits.twoByte
  | dynamicBytes, .bytes content => content.length ≤ Limits.twoByte
  | _, _ => True

/-- How the index of a reference is found. -/
def leafIndex : Descriptor → Value → Referencing UInt8
  | account, .account a => References.accountIndex a
  | asset, .asset id => References.assetIndex id
  | application, .application id => References.applicationIndex id
  | _, _ => return 0

/-- A leaf that is no reference is written the same in every layout. -/
theorem yields_encodeIn_leaf {t : Descriptor} {v : Value} {before after : Layout} {bytes : Bytes}
    (ht : t.isSequence = false) (hr : t.isReference = false) (hv : t.VariantHere v)
    (ha : t.ArityHere v) :
    Yields (t.encodeIn v) before bytes after ↔
      t.LeafFits v ∧ bytes = t.leafBytes v ∧ before = after := by
  cases t with
  | bool =>
      cases v with
      | bool b =>
          rw [encodeIn, yields_bind]
          simp only [Value.asBool, yields_lift, yields_pure]
          constructor
          · rintro ⟨_, _, ⟨hb, rfl⟩, rfl, rfl⟩
            cases hb
            exact ⟨trivial, rfl, rfl⟩
          · rintro ⟨-, rfl, rfl⟩
            exact ⟨b, before, ⟨rfl, rfl⟩, rfl, rfl⟩
      | _ => exact hv.elim
  | uint bits | ufixed bits _ | byte =>
      cases v with
      | uint n =>
          simp [encodeIn, yields_bind, Value.asNat, LeafFits, leafBytes, encodeUint_eq_ok_iff,
            and_assoc]
      | _ => exact hv.elim
  | address =>
      cases v with
      | address a => simp [encodeIn, LeafFits, leafBytes, eq_comm]
      | _ => exact hv.elim
  | string =>
      cases v with
      | str s =>
          simp [encodeIn, yields_bind, Value.asStr, LeafFits, leafBytes, encodeCounted_eq_ok_iff,
            and_assoc]
      | _ => exact hv.elim
  | dynamicBytes =>
      cases v with
      | bytes content =>
          simp [encodeIn, yields_bind, byteContent, LeafFits, leafBytes, encodeCounted_eq_ok_iff,
            and_assoc]
      | _ => exact hv.elim
  | staticBytes n =>
      cases v with
      | bytes content =>
          have hlen : content.length = n := ha
          simp [encodeIn, yields_bind, byteContent, LeafFits, leafBytes, hlen, eq_comm]
      | _ => exact hv.elim
  | account | asset | application => cases hr
  | staticArray _ _ | dynamicArray _ | tuple _ | struct _ _ => cases ht

/-- A reference is written by value or by index. -/
theorem yields_encodeIn_reference {t : Descriptor} {v : Value} {before after : Layout}
    {bytes : Bytes} (hr : t.isReference = true) (hv : t.VariantHere v) :
    Yields (t.encodeIn v) before bytes after ↔
      Yields (reference (t.leafIndex v) (t.leafBytes v)) before bytes after := by
  cases t with
  | account =>
      cases v with
      | account a => simp [encodeIn, yields_bind, Value.asAddress, leafIndex, leafBytes]
      | _ => exact hv.elim
  | asset =>
      cases v with
      | asset id => simp [encodeIn, yields_bind, Value.asU64, Value.u64?, leafIndex, leafBytes]
      | _ => exact hv.elim
  | application =>
      cases v with
      | application id =>
          simp [encodeIn, yields_bind, Value.asU64, Value.u64?, leafIndex, leafBytes]
      | _ => exact hv.elim
  | _ => cases hr

/-! ## Other values -/

private theorem asBool_eq_ok_iff {v : Value} {b : Bool} : v.asBool = .ok b ↔ v = .bool b := by
  cases v <;> simp [Value.asBool]

private theorem asNat_eq_ok_iff {v : Value} {n : Nat} : v.asNat = .ok n ↔ v = .uint n := by
  cases v <;> simp [Value.asNat]

private theorem asStr_eq_ok_iff {v : Value} {s : String} : v.asStr = .ok s ↔ v = .str s := by
  cases v <;> simp [Value.asStr]

/-- Whatever is encoded as a leaf stands for a value that decoding produces. -/
theorem settle_leaf {t : Descriptor} {v : Value} {before after : Layout} {bytes : Bytes}
    (ht : t.isSequence = false) (h : Yields (t.encodeIn v) before bytes after) :
    ∃ u, t.VariantHere u ∧ t.ArityHere u ∧ Yields (t.encodeIn u) before bytes after := by
  cases t with
  | bool =>
      have hread := h
      rw [encodeIn, yields_lift_bind] at hread
      obtain ⟨b, hread, -⟩ := hread
      exact ⟨.bool b, trivial, trivial, asBool_eq_ok_iff.mp hread ▸ h⟩
  | uint bits | ufixed bits _ | byte =>
      have hread := h
      rw [encodeIn, yields_lift_bind] at hread
      obtain ⟨n, hread, -⟩ := hread
      exact ⟨.uint n, trivial, trivial, asNat_eq_ok_iff.mp hread ▸ h⟩
  | address =>
      cases v with
      | address a => exact ⟨.address a, trivial, trivial, h⟩
      | account a => exact ⟨.address a, trivial, trivial, by simpa [encodeIn] using h⟩
      | bytes content =>
          by_cases hlen : content.length = 32
          · refine ⟨.address ⟨⟨content, hlen⟩⟩, trivial, trivial, ?_⟩
            rw [encodeIn, if_pos hlen, yields_pure] at h
            rw [encodeIn, yields_pure]
            exact h
          · simp [encodeIn, hlen] at h
      | _ => simp [encodeIn] at h
  | string =>
      have hread := h
      rw [encodeIn, yields_lift_bind] at hread
      obtain ⟨s, hread, -⟩ := hread
      exact ⟨.str s, trivial, trivial, asStr_eq_ok_iff.mp hread ▸ h⟩
  -- from here on the step behind takes the content, whatever it was read from
  | dynamicBytes =>
      rw [encodeIn, yields_lift_bind] at h
      obtain ⟨content, -, h⟩ := h
      refine ⟨.bytes content, trivial, trivial, ?_⟩
      rw [encodeIn, yields_lift_bind]
      exact ⟨content, rfl, h⟩
  | staticBytes n =>
      rw [encodeIn, yields_lift_bind] at h
      obtain ⟨content, -, h⟩ := h
      have hlen : content.length = n := not_not.mp (yields_unless.mp h).1
      refine ⟨.bytes content, trivial, hlen, ?_⟩
      rw [encodeIn, yields_lift_bind]
      exact ⟨content, rfl, h⟩
  | account =>
      cases v with
      | account a => exact ⟨.account a, trivial, trivial, h⟩
      | address a => exact ⟨.account a, trivial, trivial, by
          simpa [encodeIn, yields_bind, Value.asAddress] using h⟩
      | _ => simp [encodeIn, yields_bind, Value.asAddress] at h
  | asset =>
      rw [encodeIn, yields_lift_bind] at h
      obtain ⟨id, -, h⟩ := h
      refine ⟨.asset id, trivial, trivial, ?_⟩
      rw [encodeIn, yields_lift_bind]
      exact ⟨id, rfl, h⟩
  | application =>
      rw [encodeIn, yields_lift_bind] at h
      obtain ⟨id, -, h⟩ := h
      refine ⟨.application id, trivial, trivial, ?_⟩
      rw [encodeIn, yields_lift_bind]
      exact ⟨id, rfl, h⟩
  | staticArray _ _ | dynamicArray _ | tuple _ | struct _ _ => cases ht

/-- Leaves are canonical as they are. -/
theorem canonical_leaf {t : Descriptor} (ht : t.isSequence = false) (v : Value) :
    t.canonical v = .ok v := by
  cases t with
  | staticArray _ _ | dynamicArray _ | tuple _ | struct _ _ => cases ht
  | _ => rw [canonical] <;> first | rfl | simp

theorem entries_leaf {t : Descriptor} (ht : t.isSequence = false) (v : Value) :
    t.entries v = [] := by
  cases t with
  | staticArray _ _ | dynamicArray _ | tuple _ | struct _ _ => cases ht
  | _ => simp [entries]

/-- A leaf has no entries, so what is asked for everywhere is asked for once. -/
theorem everywhere_leaf {P : Descriptor → Value → Prop} {t : Descriptor} {v : Value}
    (ht : t.isSequence = false) (h : P t v) : Everywhere P t v := by
  refine .intro h ?_
  rw [entries_leaf ht]
  simp

/-- A byte string that is written has the length of its type. -/
theorem arityHere_leaf {t : Descriptor} {v : Value} {before after : Layout} {bytes : Bytes}
    (ht : t.isSequence = false) (hv : t.VariantHere v)
    (h : Yields (t.encodeIn v) before bytes after) : t.ArityHere v := by
  cases t with
  | staticBytes n =>
      cases v with
      | bytes content =>
          rw [encodeIn, yields_bind] at h
          obtain ⟨content', middle, hcontent, h⟩ := h
          obtain ⟨hcontent, -⟩ := yields_lift.mp hcontent
          cases hcontent
          exact not_not.mp (yields_unless.mp h).1
      | _ => exact hv.elim
  | staticArray _ _ | dynamicArray _ | tuple _ | struct _ _ => cases ht
  | _ => cases v <;> trivial

/-! ## Growth and length -/

/-- What a found index stands for in the arrays, then and later. -/
theorem decodeIn_leafIndex {t : Descriptor} {v : Value} {before after : References} {i : UInt8}
    (hr : t.isReference = true) (hv : t.VariantHere v)
    (h : (t.leafIndex v).run before = (.ok i, after)) :
    before.Grows after ∧ ∀ later, after.Grows later → t.decodeIn (some later) [i] = .ok v := by
  cases t with
  | account =>
      cases v with
      | account a =>
          obtain ⟨hgrows, hat⟩ := References.accountAt_accountIndex h
          refine ⟨hgrows, ?_⟩
          intro later hlater
          rw [decodeIn, bind_eq_ok_iff]
          exact ⟨i, rfl, bind_eq_ok_iff.mpr ⟨a, hat later hlater, rfl⟩⟩
      | _ => exact hv.elim
  | asset =>
      cases v with
      | asset id =>
          obtain ⟨hgrows, hat⟩ := References.assetAt_assetIndex h
          refine ⟨hgrows, ?_⟩
          intro later hlater
          rw [decodeIn, bind_eq_ok_iff]
          exact ⟨i, rfl, bind_eq_ok_iff.mpr ⟨id, hat later hlater, rfl⟩⟩
      | _ => exact hv.elim
  | application =>
      cases v with
      | application id =>
          obtain ⟨hgrows, hat⟩ := References.applicationAt_applicationIndex h
          refine ⟨hgrows, ?_⟩
          intro later hlater
          rw [decodeIn, bind_eq_ok_iff]
          exact ⟨i, rfl, bind_eq_ok_iff.mpr ⟨id, hat later hlater, rfl⟩⟩
      | _ => exact hv.elim
  | _ => cases hr

/-- Writing a leaf appends to the reference arrays at most. -/
theorem grows_leaf {t : Descriptor} {v : Value} {before after : Layout} {bytes : Bytes}
    (ht : t.isSequence = false) (h : Yields (t.encodeIn v) before bytes after) :
    Grows before after := by
  obtain ⟨u, hu, ha, h⟩ := settle_leaf ht h
  cases hr : t.isReference with
  | false =>
      obtain ⟨-, -, rfl⟩ := (yields_encodeIn_leaf ht hr hu ha).mp h
      exact .refl before
  | true =>
      rw [yields_encodeIn_reference hr hu, yields_reference] at h
      rcases h with ⟨rfl, rfl, -⟩ | ⟨refs, refs', i, rfl, rfl, hi, -⟩
      · exact .byValue
      · exact .byIndex (decodeIn_leafIndex hr hu hi).1

/-- By value, a leaf of a static type has the length of its type. -/
theorem length_leafBytes {t : Descriptor} {v : Value} {n : Nat} (ht : t.isSequence = false)
    (hv : t.VariantHere v) (ha : t.ArityHere v) (hn : t.length? false = some n) :
    (t.leafBytes v).length = n := by
  cases t with
  | bool | byte | uint _ | ufixed _ _ | address | account | asset | application =>
      cases v <;> first
        | exact hv.elim
        | simpa [length?, leafBytes, Bytes.ofUInt64] using hn
  | staticBytes k =>
      cases v with
      | bytes content =>
          have hlen : content.length = k := ha
          simpa [length?, leafBytes, hlen] using hn
      | _ => exact hv.elim
  | string | dynamicBytes => simp [length?] at hn
  | staticArray _ _ | dynamicArray _ | tuple _ | struct _ _ => cases ht

/-- Only references have another length by index. -/
theorem length?_leaf {t : Descriptor} (ht : t.isSequence = false) (indexed : Bool) :
    t.length? indexed = if indexed && t.isReference then some 1 else t.length? false := by
  cases t with
  | staticArray _ _ | dynamicArray _ | tuple _ | struct _ _ => cases ht
  | _ => cases indexed <;> simp [length?, isReference]

/-- A leaf of a static type has the length of its type. -/
theorem length_leaf {t : Descriptor} {v : Value} {before after : Layout} {bytes : Bytes} {n : Nat}
    (ht : t.isSequence = false) (h : Yields (t.encodeIn v) before bytes after)
    (hn : t.length? before.isSome = some n) : bytes.length = n := by
  obtain ⟨u, hu, ha, h⟩ := settle_leaf ht h
  rw [length?_leaf ht] at hn
  cases hr : t.isReference with
  | false =>
      obtain ⟨-, rfl, -⟩ := (yields_encodeIn_leaf ht hr hu ha).mp h
      exact length_leafBytes ht hu ha (by simpa [hr] using hn)
  | true =>
      rw [yields_encodeIn_reference hr hu, yields_reference] at h
      rcases h with ⟨rfl, rfl, rfl⟩ | ⟨refs, refs', i, rfl, rfl, -, rfl⟩
      · exact length_leafBytes ht hu ha (by simpa using hn)
      · simpa [hr] using hn

/-! ## Reading back -/

/-- Digits to the base 256 fill a width in whole bytes. -/
theorem pow_width {bits : Nat} (hbits : bits % 8 = 0) : 256 ^ (bits / 8) = 2 ^ bits := by
  rw [show 256 = 2 ^ 8 from rfl, ← pow_mul, Nat.mul_div_cancel' (Nat.dvd_of_mod_eq_zero hbits)]

/-- A number that fits its bits is what its bytes say. -/
theorem toNat_ofNat_of_lt {bits n : Nat} (hbits : bits % 8 = 0) (h : n < 2 ^ bits) :
    Bytes.toNat (Bytes.ofNat (bits / 8) n) = n := by
  rw [Bytes.toNat_ofNat]
  refine Nat.mod_eq_of_lt ?_
  rw [pow_width hbits]
  exact h

theorem expectSize_eq_ok_iff {t : Descriptor} {length : Nat} {bytes : Bytes} {u : Unit} :
    t.expectSize length bytes = .ok u ↔ bytes.length = length := by
  rw [expectSize]
  split
  · next h => simp [h]
  · next h => simp [h]

/-- Counted content is read back, and nothing else is read as such. -/
theorem readCounted_eq_ok_iff {t : Descriptor} {bytes content : Bytes} :
    t.readCounted bytes = .ok content ↔
      content.length ≤ Limits.twoByte ∧ bytes = counted content := by
  constructor
  · intro h
    rcases bytes with _ | ⟨hi, _ | ⟨lo, rest⟩⟩
    · cases h
    · cases h
    · rw [readCounted] at h
      split at h
      · next hlen =>
          cases h
          obtain ⟨hle, hdigits⟩ := eq_ofNat_two hlen.symm
          refine ⟨hle, ?_⟩
          rw [counted, ← hdigits]
          rfl
      · cases h
  · rintro ⟨hle, rfl⟩
    have hcount := toNat_two hle
    simp only [counted, Bytes.ofNat, List.nil_append, List.cons_append] at hcount ⊢
    rw [readCounted]
    simp [hcount]

/-- By value, a leaf is written as its bytes. -/
theorem bytes_of_leaf {t : Descriptor} {v : Value} {bytes : Bytes} (ht : t.isSequence = false)
    (hv : t.VariantHere v) (ha : t.ArityHere v) (h : Yields (t.encodeIn v) none bytes none) :
    bytes = t.leafBytes v := by
  cases hr : t.isReference with
  | false => exact ((yields_encodeIn_leaf ht hr hv ha).mp h).2.1
  | true =>
      rw [yields_encodeIn_reference hr hv, yields_reference] at h
      rcases h with ⟨-, -, h⟩ | ⟨refs, refs', i, h, -⟩
      · exact h
      · cases h

/-- Only references are read differently by index. -/
theorem decodeIn_leaf_eq {t : Descriptor} (ht : t.isSequence = false) (hr : t.isReference = false)
    (layout : Layout) (bytes : Bytes) : t.decodeIn layout bytes = t.decodeIn none bytes := by
  cases t with
  | account | asset | application => cases hr
  | staticArray _ _ | dynamicArray _ | tuple _ | struct _ _ => cases ht
  | _ => simp [decodeIn]

private theorem readId_ofUInt64 (t : Descriptor) (id : UInt64) :
    t.readId (Bytes.ofUInt64 id) = .ok id := by
  have hlt := id.toNat_lt
  have hback : Bytes.toNat (Bytes.ofUInt64 id) = id.toNat := by
    rw [Bytes.ofUInt64, Bytes.toNat_ofNat]
    exact Nat.mod_eq_of_lt (by omega)
  rw [readId, bind_eq_ok_iff]
  refine ⟨(), expectSize_eq_ok_iff.mpr (Bytes.length_ofNat 8 _), ?_⟩
  rw [hback, pure_eq_ok_iff, UInt64.ofNat_toNat]

private theorem readAddress_bytes (t : Descriptor) (a : Address) :
    t.readAddress a.bytes = .ok a := by
  rw [readAddress, Address.ofBytes?_bytes]

/-- By value, a leaf reads as itself. -/
theorem decodeIn_leafBytes {t : Descriptor} {v : Value} (ht : t.isSequence = false)
    (hwidth : t.WidthPermitted) (hv : t.VariantHere v) (ha : t.ArityHere v)
    (hfits : t.LeafFits v) : t.decodeIn none (t.leafBytes v) = .ok v := by
  cases t with
  | bool =>
      cases v with
      | bool b => cases b <;> rfl
      | _ => exact hv.elim
  | uint bits | ufixed bits _ =>
      cases v with
      | uint n =>
          rw [decodeIn, leafBytes, bind_eq_ok_iff]
          refine ⟨(), expectSize_eq_ok_iff.mpr (Bytes.length_ofNat _ _), ?_⟩
          rw [toNat_ofNat_of_lt hwidth.2.2 hfits, pure_eq_ok_iff]
      | _ => exact hv.elim
  | byte =>
      cases v with
      | uint n =>
          rw [decodeIn, leafBytes, bind_eq_ok_iff]
          refine ⟨(), expectSize_eq_ok_iff.mpr (Bytes.length_ofNat _ _), ?_⟩
          have hfits : n < 2 ^ 8 := hfits
          rw [Bytes.toNat_ofNat, Nat.mod_eq_of_lt (by omega), pure_eq_ok_iff]
      | _ => exact hv.elim
  | address =>
      cases v with
      | address a => exact bind_eq_ok_iff.mpr ⟨a, readAddress_bytes _ a, rfl⟩
      | _ => exact hv.elim
  | string =>
      cases v with
      | str s =>
          rw [decodeIn, bind_eq_ok_iff]
          exact ⟨Bytes.ofText s, readCounted_eq_ok_iff.mpr ⟨hfits, rfl⟩, by
            rw [Bytes.text?_ofText]
            rfl⟩
      | _ => exact hv.elim
  | dynamicBytes =>
      cases v with
      | bytes content =>
          exact bind_eq_ok_iff.mpr ⟨content, readCounted_eq_ok_iff.mpr ⟨hfits, rfl⟩, rfl⟩
      | _ => exact hv.elim
  | staticBytes n =>
      cases v with
      | bytes content => exact bind_eq_ok_iff.mpr ⟨(), expectSize_eq_ok_iff.mpr ha, rfl⟩
      | _ => exact hv.elim
  | account =>
      cases v with
      | account a => exact bind_eq_ok_iff.mpr ⟨a, readAddress_bytes _ a, rfl⟩
      | _ => exact hv.elim
  | asset =>
      cases v with
      | asset id => exact bind_eq_ok_iff.mpr ⟨id, readId_ofUInt64 _ id, rfl⟩
      | _ => exact hv.elim
  | application =>
      cases v with
      | application id => exact bind_eq_ok_iff.mpr ⟨id, readId_ofUInt64 _ id, rfl⟩
      | _ => exact hv.elim
  | staticArray _ _ | dynamicArray _ | tuple _ | struct _ _ => cases ht

/-- A leaf reads back, also when the reference arrays have grown since. -/
theorem decodeIn_leaf {t : Descriptor} {v : Value} {before after later : Layout} {bytes : Bytes}
    (ht : t.isSequence = false) (hwidth : t.WidthPermitted) (hv : t.VariantHere v)
    (ha : t.ArityHere v) (h : Yields (t.encodeIn v) before bytes after)
    (hgrows : Grows after later) : t.decodeIn later bytes = .ok v := by
  cases hr : t.isReference with
  | false =>
      obtain ⟨hfits, rfl, rfl⟩ := (yields_encodeIn_leaf ht hr hv ha).mp h
      rw [decodeIn_leaf_eq ht hr]
      exact decodeIn_leafBytes ht hwidth hv ha hfits
  | true =>
      rw [yields_encodeIn_reference hr hv, yields_reference] at h
      rcases h with ⟨rfl, rfl, rfl⟩ | ⟨refs, refs', i, rfl, rfl, hi, rfl⟩
      · cases hgrows
        refine decodeIn_leafBytes ht hwidth hv ha ?_
        cases t with
        | account | asset | application => cases v <;> trivial
        | _ => cases hr
      · cases hgrows with
        | byIndex hgrows => exact (decodeIn_leafIndex hr hv hi).2 _ hgrows

/-! ## Nothing else is read -/

/-- The octets of a leaf; a boolean that stands alone leaves seven bits to spare. -/
def leafOctets : Descriptor → Value → List Octet
  | bool, .bool b => runOctets [b]
  | t, v => solids (t.leafBytes v)

theorem written_leafOctets {t : Descriptor} {v : Value} (hv : t.VariantHere v) :
    written (t.leafOctets v) = t.leafBytes v := by
  cases t with
  | bool =>
      cases v with
      | bool b => cases b <;> decide
      | _ => exact hv.elim
  | _ => exact written_solids _

private theorem admitted_bool (byte : UInt8) : Admitted (runOctets [topBit byte]) [byte] := by
  have hnone : runOctets ([topBit byte].drop 8) = [] := by simp
  rw [runOctets_cons, hnone]
  exact .cons (runOctet_admits_iff.mpr (shows_cons.mpr ⟨rfl, shows_nil _⟩)) .nil

private theorem digits_toNat (bytes : Bytes) :
    Bytes.toNat bytes < 256 ^ bytes.length ∧
      Bytes.ofNat bytes.length (Bytes.toNat bytes) = bytes := by
  induction bytes using List.reverseRecOn with
  | nil => exact ⟨by decide, rfl⟩
  | append_singleton bytes b ih =>
      have hb := b.toNat_lt
      have hdiv : (Bytes.toNat bytes * 256 + b.toNat) / 256 = Bytes.toNat bytes := by omega
      have hlast : UInt8.ofNat (Bytes.toNat bytes * 256 + b.toNat) = b := by
        refine UInt8.toNat_inj.mp ?_
        rw [UInt8.toNat_ofNat']
        omega
      rw [Bytes.toNat_append_singleton, List.length_append, List.length_singleton, Bytes.ofNat,
        hdiv, hlast, ih.2, pow_succ]
      exact ⟨by omega, rfl⟩

/-- Digits that fill a width are those of the number they stand for. -/
theorem ofNat_toNat {bits : Nat} {bytes : Bytes} (hbits : bits % 8 = 0)
    (hlen : bytes.length = bits / 8) :
    Bytes.toNat bytes < 2 ^ bits ∧ bytes = Bytes.ofNat (bits / 8) (Bytes.toNat bytes) := by
  obtain ⟨hlt, hback⟩ := digits_toNat bytes
  rw [hlen] at hlt hback
  rw [pow_width hbits] at hlt
  exact ⟨hlt, hback.symm⟩

private theorem bytes_of_readAddress {t : Descriptor} {bytes : Bytes} {a : Address}
    (h : t.readAddress bytes = .ok a) : bytes = a.bytes := by
  rw [readAddress, Address.ofBytes?, Bytes32.ofBytes?] at h
  by_cases hlen : bytes.length = 32
  · simp only [dif_pos hlen, Option.map_some] at h
    cases h
    rfl
  · simp only [dif_neg hlen, Option.map_none] at h
    cases h

private theorem bytes_of_readId {t : Descriptor} {bytes : Bytes} {id : UInt64}
    (h : t.readId bytes = .ok id) : bytes = Bytes.ofUInt64 id := by
  rw [readId, bind_eq_ok_iff] at h
  obtain ⟨_, hsize, h⟩ := h
  have hlen := expectSize_eq_ok_iff.mp hsize
  obtain ⟨hlt, hback⟩ := @ofNat_toNat 64 bytes rfl hlen
  cases h
  rw [Bytes.ofUInt64, UInt64.toNat_ofNat', Nat.mod_eq_of_lt hlt]
  exact hback

/-- Whatever is read as a leaf by value is admitted for a leaf that fits. -/
theorem leaf_of_decodeIn {t : Descriptor} {bytes : Bytes} {w : Value} (ht : t.isSequence = false)
    (hwidth : t.WidthPermitted) (h : t.decodeIn none bytes = .ok w) :
    t.VariantHere w ∧ t.ArityHere w ∧ t.LeafFits w ∧ Admitted (t.leafOctets w) bytes := by
  cases t with
  | bool =>
      rcases bytes with _ | ⟨b, _ | ⟨b', bytes⟩⟩
      · cases h
      · cases h
        exact ⟨trivial, trivial, trivial, admitted_bool b⟩
      · cases h
  | uint bits | ufixed bits _ =>
      rw [decodeIn, bind_eq_ok_iff] at h
      obtain ⟨_, hsize, h⟩ := h
      cases h
      obtain ⟨hlt, hback⟩ := ofNat_toNat hwidth.2.2 (expectSize_eq_ok_iff.mp hsize)
      exact ⟨trivial, trivial, hlt, admitted_solids.mpr hback⟩
  | byte =>
      rw [decodeIn, bind_eq_ok_iff] at h
      obtain ⟨_, hsize, h⟩ := h
      cases h
      obtain ⟨hlt, hback⟩ := @ofNat_toNat 8 bytes rfl (expectSize_eq_ok_iff.mp hsize)
      exact ⟨trivial, trivial, hlt, admitted_solids.mpr hback⟩
  | address | account =>
      rw [decodeIn, bind_eq_ok_iff] at h
      obtain ⟨a, ha, h⟩ := h
      cases h
      exact ⟨trivial, trivial, trivial, admitted_solids.mpr (bytes_of_readAddress ha)⟩
  | string =>
      rw [decodeIn, bind_eq_ok_iff] at h
      obtain ⟨content, hcontent, h⟩ := h
      obtain ⟨hle, rfl⟩ := readCounted_eq_ok_iff.mp hcontent
      cases htext : content.text? with
      | none =>
          rw [htext] at h
          cases h
      | some s =>
          rw [htext] at h
          cases h
          -- text is read only from the bytes that it is written as
          have hback := Bytes.ofText_of_text? htext
          subst hback
          exact ⟨trivial, trivial, hle, admitted_solids.mpr rfl⟩
  | dynamicBytes =>
      rw [decodeIn, bind_eq_ok_iff] at h
      obtain ⟨content, hcontent, h⟩ := h
      obtain ⟨hle, rfl⟩ := readCounted_eq_ok_iff.mp hcontent
      cases h
      exact ⟨trivial, trivial, hle, admitted_solids.mpr rfl⟩
  | staticBytes n =>
      rw [decodeIn, bind_eq_ok_iff] at h
      obtain ⟨_, hsize, h⟩ := h
      cases h
      exact ⟨trivial, expectSize_eq_ok_iff.mp hsize, trivial, admitted_solids.mpr rfl⟩
  | asset | application =>
      rw [decodeIn, bind_eq_ok_iff] at h
      obtain ⟨id, hid, h⟩ := h
      cases h
      exact ⟨trivial, trivial, trivial, admitted_solids.mpr (bytes_of_readId hid)⟩
  | staticArray _ _ | dynamicArray _ | tuple _ | struct _ _ => cases ht

end Descriptor

end AvmSandbox
