import AvmSandbox.Method.Basic
import AvmSandbox.Proofs.Descriptor.Padding
import AvmSandbox.Proofs.Descriptor.Reading

/-! # Signatures — methods by their text and back

    The arguments of a signature end at the parenthesis that closes the first one,
    and are cut at the commas outside of all others.  Names of types have commas
    and parentheses in them, but only such as the cuts pass over.

    * `Passes`: texts that both cuts pass over;
    * `Signature.text_of_parse` and `Signature.parse_text`: cutting a signature
      loses nothing, and a signature put together is cut at the same places;
    * `Method.signature_of_read`: the signature of a method that was read;
    * `Method.ofSignature_signature`: the method read from the signature of one. -/

namespace AvmSandbox

open Descriptor

namespace Signature

/-! ## Texts that are passed over -/

/-- Whether a text is passed over by both cuts: by that at the closing parenthesis wherever it
    stands, and by those at the commas inside of at least so many parentheses. -/
structure Passes (least : Nat) (xs : List Char) : Prop where
  closing : ∀ depth done rest,
    splitClosing depth done (xs ++ rest) = splitClosing depth (xs.reverse ++ done) rest
  commas : ∀ depth part done rest, least ≤ depth →
    splitCommas depth part done (xs ++ rest) = splitCommas depth (xs.reverse ++ part) done rest

namespace Passes

variable {least : Nat} {xs ys : List Char}

/-- An empty text is passed over. -/
theorem nil : Passes least [] := ⟨fun _ _ _ => rfl, fun _ _ _ _ _ => rfl⟩

/-- Texts that are passed over one by one are passed over together. -/
theorem append (hx : Passes least xs) (hy : Passes least ys) : Passes least (xs ++ ys) := by
  constructor
  · intro depth done rest
    rw [List.append_assoc, hx.closing, hy.closing, List.reverse_append, List.append_assoc]
  · intro depth part done rest hdepth
    rw [List.append_assoc, hx.commas _ _ _ _ hdepth, hy.commas _ _ _ _ hdepth,
      List.reverse_append, List.append_assoc]

/-- A text that is passed over at any depth is so inside parentheses. -/
theorem inside (h : Passes 0 xs) : Passes least xs :=
  ⟨h.closing, fun depth part done rest _ => h.commas depth part done rest (Nat.zero_le depth)⟩

/-- Characters that are neither parentheses nor commas. -/
theorem plain (h : ∀ c ∈ xs, c ≠ '(' ∧ c ≠ ')' ∧ c ≠ ',') : Passes 0 xs := by
  induction xs with
  | nil => exact nil
  | cons c xs ih =>
      obtain ⟨hopen, hclose, hcomma⟩ := h c List.mem_cons_self
      have hxs := ih fun d hd => h d (List.mem_cons_of_mem _ hd)
      constructor
      · intro depth done rest
        rw [List.cons_append, splitClosing, if_neg hclose, if_neg hopen, hxs.closing]
        simp
      · intro depth part done rest hdepth
        rw [List.cons_append, splitCommas, if_neg (by simp [hcomma]), if_neg hopen, if_neg hclose,
          hxs.commas _ _ _ _ hdepth]
        simp

/-- Commas are passed over inside parentheses. -/
theorem comma : Passes 1 [','] := by
  constructor
  · intro depth done rest
    rw [List.singleton_append, splitClosing, if_neg (by decide), if_neg (by decide)]
    rfl
  · intro depth part done rest hdepth
    rw [List.singleton_append, splitCommas, if_neg (by omega), if_neg (by decide),
      if_neg (by decide)]
    rfl

/-- What is passed over inside parentheses is passed over together with them. -/
theorem parentheses (h : Passes 1 xs) : Passes 0 ('(' :: (xs ++ [')'])) := by
  constructor
  · intro depth done rest
    rw [List.cons_append, List.append_assoc, splitClosing, if_neg (by decide), if_pos rfl,
      h.closing, List.singleton_append, splitClosing, if_pos rfl, if_neg (by omega)]
    simp
  · intro depth part done rest _
    rw [List.cons_append, List.append_assoc, splitCommas, if_neg (by simp), if_pos rfl,
      h.commas _ _ _ _ (by omega), List.singleton_append, splitCommas, if_neg (by simp),
      if_neg (by decide), if_pos rfl]
    simp

/-- Names that are passed over may stand in a list, inside parentheses. -/
theorem intercalate {names : List (List Char)} (h : ∀ name ∈ names, Passes 0 name) :
    Passes 1 (List.intercalate [','] names) := by
  induction names with
  | nil => exact nil
  | cons x names ih =>
      have hx : Passes 1 x := (h x List.mem_cons_self).inside
      cases names with
      | nil => simpa using hx
      | cons y names =>
          rw [List.intercalate_cons_cons]
          exact (hx.append comma).append (ih fun name hname => h name (List.mem_cons_of_mem _ hname))

end Passes

theorem passes_of_alphanum {xs : List Char} (h : ∀ c ∈ xs, c.isAlphanum = true) :
    Passes 0 xs := by
  refine .plain fun c hc => ⟨?_, ?_, ?_⟩
  · rintro rfl
    exact absurd (h _ hc) (by decide)
  · rintro rfl
    exact absurd (h _ hc) (by decide)
  · rintro rfl
    exact absurd (h _ hc) (by decide)

theorem passes_bracket (length : Option Nat) : Passes 0 (bracket length) := by
  have hopen : Passes 0 ['['] := .plain (by simp)
  have hclose : Passes 0 [']'] := .plain (by simp)
  cases length with
  | none => exact hopen.append hclose
  | some n =>
      have hdigits := passes_of_alphanum fun c hc =>
        isAlphanum_of_isDigit (isDigit_of_mem_digits (n := n) c hc)
      exact (hopen.append hdigits).append hclose

/-- The name of a type is passed over at any depth: its parentheses close. -/
theorem passes_nameChars (t : Descriptor) : Passes 0 t.nameChars := by
  induction t using inductOn with
  | step t ih =>
      have hword : t.isWord = true → Passes 0 t.nameChars := fun hword =>
        passes_of_alphanum (isAlphanum_of_mem_word hword)
      have hrow : ∀ {ts : List Descriptor}, t.components? = some ts → Passes 0 t.nameChars := by
        intro ts hts
        rw [nameChars_of_components hts]
        refine Passes.parentheses (Passes.intercalate ?_)
        intro name hname
        obtain ⟨c, hc, rfl⟩ := List.mem_map.mp hname
        exact ih c (by rw [inner_of_components hts]; exact hc)
      have hbyte : Passes 0 byte.nameChars := passes_of_alphanum (isAlphanum_of_mem_word rfl)
      cases t with
      | staticArray t n =>
          rw [nameChars_staticArray]
          exact (ih t (List.mem_singleton_self t)).append (passes_bracket _)
      | dynamicArray t =>
          rw [nameChars_dynamicArray]
          exact (ih t (List.mem_singleton_self t)).append (passes_bracket _)
      | staticBytes n => exact hbyte.append (passes_bracket (some n))
      | dynamicBytes => exact hbyte.append (passes_bracket none)
      | tuple ts => exact hrow rfl
      | struct name fs => exact hrow rfl
      | _ => exact hword rfl

/-! ## Cutting signatures -/

/-- The text of a signature, character by character. -/
theorem toList_text (s : Signature) :
    s.text.toList = s.name.toList ++
      '(' :: (List.intercalate [','] (s.args.map String.toList) ++ ')' :: s.returns.toList) := by
  simp [text]

/-- The cut at the closing parenthesis loses nothing but it. -/
theorem eq_of_splitClosing {depth : Nat} {done cs args rest : List Char}
    (h : splitClosing depth done cs = some (args, rest)) :
    done.reverse ++ cs = args ++ ')' :: rest := by
  induction cs generalizing depth done with
  | nil => cases h
  | cons c cs ih =>
      rw [splitClosing] at h
      split at h
      · next hclose =>
          split at h
          · cases h
            rw [hclose]
          · rw [← ih h]
            simp
      · rw [← ih h]
        simp

/-- Two pieces at the end are one piece with a comma in it. -/
theorem intercalate_concat (names : List (List Char)) (x y : List Char) :
    List.intercalate [','] (names ++ [x, y]) = List.intercalate [','] (names ++ [x ++ ',' :: y]) := by
  induction names with
  | nil => simp
  | cons name names ih =>
      cases names with
      | nil => simp
      | cons name' names =>
          rw [List.cons_append, List.cons_append, List.intercalate_cons_cons, List.cons_append,
            List.cons_append, List.intercalate_cons_cons]
          exact congrArg _ ih

/-- The cuts at the commas lose nothing but them. -/
theorem intercalate_splitCommas (depth : Nat) (part : List Char) (done : List String)
    (cs : List Char) :
    List.intercalate [','] ((splitCommas depth part done cs).map String.toList)
      = List.intercalate [','] (done.reverse.map String.toList ++ [part.reverse ++ cs]) := by
  induction cs generalizing depth part done with
  | nil =>
      rw [splitCommas]
      simp
  | cons c cs ih =>
      rw [splitCommas]
      split
      · next hcomma =>
          rw [ih, hcomma.1]
          have hpieces := intercalate_concat (done.reverse.map String.toList) part.reverse cs
          simpa using hpieces
      · simp only [ih]
        simp

/-- Names that are passed over are cut where they were put together. -/
theorem splitCommas_intercalate {x : String} {names : List String} (done : List String)
    (h : ∀ name ∈ x :: names, Passes 0 name.toList) :
    splitCommas 0 [] done (List.intercalate [','] ((x :: names).map String.toList))
      = done.reverse ++ x :: names := by
  induction names generalizing x done with
  | nil =>
      have hx := (h x List.mem_cons_self).commas 0 [] done [] (Nat.le_refl 0)
      rw [List.append_nil] at hx
      rw [List.map_singleton, List.intercalate_singleton, hx, splitCommas]
      simp
  | cons y names ih =>
      have hx := (h x List.mem_cons_self).commas 0 [] done
      have hmore := ih (x := y) (x :: done) fun name hname => h name (List.mem_cons_of_mem _ hname)
      rw [List.map_cons, List.map_cons, List.intercalate_cons_cons, List.append_assoc,
        hx _ (Nat.le_refl 0), List.singleton_append, splitCommas, if_pos ⟨rfl, rfl⟩,
        ← List.map_cons]
      simpa using hmore

/-- Where reading succeeds, the text is the signature that is read. -/
theorem text_of_parse {text : String} {s : Signature} (h : parse text = .ok s) :
    s.text = text ∧ '(' ∉ s.name.toList := by
  rw [parse] at h
  simp only at h
  split at h
  · cases h
  · next c rest hdrop =>
      split at h
      · cases h
      · split at h
        · cases h
        · next args returns hclosing =>
            split at h
            · cases h
            · cases h
              have hrest : rest = args ++ ')' :: returns := eq_of_splitClosing hclosing
              have hargs : List.intercalate [',']
                  ((if args.isEmpty = true then [] else splitCommas 0 [] [] args).map
                    String.toList) = args := by
                split
                · next hempty => rw [List.isEmpty_iff.mp hempty]; rfl
                · rw [intercalate_splitCommas]
                  simp
              constructor
              · refine String.toList_injective ?_
                rw [toList_text, hargs, String.toList_ofList, String.toList_ofList, ← hrest]
                exact (eq_append_separator hdrop).symm
              · rw [String.toList_ofList]
                intro hmem
                have hne := List.mem_takeWhile_imp hmem
                revert hne
                decide

/-- A signature is cut where it was put together. -/
theorem parse_text {s : Signature} (hname : s.name ≠ "") (hopen : '(' ∉ s.name.toList)
    (hargs : ∀ arg ∈ s.args, arg ≠ "" ∧ Passes 0 arg.toList) (hreturns : s.returns ≠ "") :
    parse s.text = .ok s := by
  have hrun := ne_of_notMem hopen
  have hpasses : Passes 1 (List.intercalate [','] (s.args.map String.toList)) := by
    refine Passes.intercalate ?_
    intro arg harg
    obtain ⟨name, hmem, rfl⟩ := List.mem_map.mp harg
    exact (hargs name hmem).2
  -- the parenthesis that closes the arguments is found
  have hclosing : splitClosing 0 []
      (List.intercalate [','] (s.args.map String.toList) ++ ')' :: s.returns.toList)
      = some (List.intercalate [','] (s.args.map String.toList), s.returns.toList) := by
    rw [hpasses.closing, splitClosing, if_pos rfl, if_pos rfl, List.append_nil,
      List.reverse_reverse]
  -- the commas between arguments are found, and no others
  have hcommas : (if (List.intercalate [','] (s.args.map String.toList)).isEmpty = true then []
      else splitCommas 0 [] [] (List.intercalate [','] (s.args.map String.toList))) = s.args := by
    cases hs : s.args with
    | nil => rfl
    | cons x names =>
        rw [hs] at hargs
        rw [splitCommas_intercalate [] fun name hmem => (hargs name hmem).2, if_neg]
        · rfl
        · rw [List.isEmpty_iff]
          intro hempty
          refine (hargs x List.mem_cons_self).1 (String.toList_eq_nil_iff.mp ?_)
          cases names with
          | nil => simpa using hempty
          | cons y names =>
              rw [List.map_cons, List.map_cons, List.intercalate_cons_cons, List.append_assoc] at hempty
              exact (List.append_eq_nil_iff.mp hempty).1
  rw [parse]
  simp only [toList_text, dropWhile_run hrun endsRun_separator,
    takeWhile_run hrun endsRun_separator, hclosing, hcommas, String.ofList_toList]
  rw [if_neg (by simpa using hname), if_neg (by simpa using hreturns)]

end Signature

/-! ## Types of arguments -/

namespace ArgType

/-- The type of an argument with its descriptor in normal form. -/
def normal : ArgType → ArgType
  | value t => value t.normal
  | transaction kind => transaction kind

/-- Whether the numbers in the type of an argument are permitted. -/
def Permitted : ArgType → Prop
  | value t => t.Permitted
  | transaction _ => True

/-- Whether two arguments are of one kind: encoded values of one shape, or transactions for
    which the same is declared. -/
def SameKind : ArgType → ArgType → Prop
  | value t, value u => t.sameShape u = true
  | transaction kind, transaction kind' => kind = kind'
  | _, _ => False

/-- A type and its normal form have one name. -/
theorem name_normal (a : ArgType) : a.normal.name = a.name := by
  cases a with
  | value t => exact Descriptor.name_normal t
  | transaction kind => rfl

theorem sameKind_normal (a : ArgType) : a.SameKind a.normal := by
  cases a with
  | value t => exact sameShape_normal t
  | transaction kind => rfl

/-- The words that stand for transactions or for nothing are no names of types. -/
theorem parse_reserved : ∀ word ∈ voidName :: "txn" :: TransactionKind.all.map TransactionKind.name,
    (Descriptor.parse word).toOption = none := by
  decide +kernel

/-- No permitted type is called as a reserved word is. -/
theorem name_ne_reserved {t : Descriptor} (ht : t.Permitted) {word : String}
    (hword : word ∈ voidName :: "txn" :: TransactionKind.all.map TransactionKind.name) :
    t.name ≠ word := by
  rintro rfl
  have hnone := parse_reserved _ hword
  rw [Descriptor.parse_name ht] at hnone
  cases hnone

theorem name_of_ofName? {text : String} {kind : TransactionKind}
    (h : TransactionKind.ofName? text = some kind) : kind.name = text := by
  simpa using List.find?_some h

/-- The name of a permitted argument is read as its normal form. -/
theorem parse_name {a : ArgType} (ha : a.Permitted) : parse a.name = .ok a.normal := by
  cases a with
  | value t =>
      have hkind : TransactionKind.ofName? t.name = none := by
        cases hfound : TransactionKind.ofName? t.name with
        | none => rfl
        | some kind =>
            refine absurd (name_of_ofName? hfound).symm (name_ne_reserved ha ?_)
            cases kind <;> decide
      show parse t.name = .ok (value t.normal)
      rw [parse, if_neg (name_ne_reserved ha (by decide)), hkind]
      simp only [Descriptor.parse_name ha]
      rfl
  | transaction kind =>
      cases kind with
      | none => rfl
      | some kind => cases kind <;> rfl

/-- An argument that is read has the name of its text, but for zeros in front of numbers. -/
theorem name_of_parse {text : String} {a : ArgType} (h : parse text = .ok a) :
    a.name.toList = unpad false text.toList := by
  rw [parse] at h
  split at h
  · next htext =>
      cases h
      rw [htext]
      rfl
  · split at h
    · next kind hkind =>
        cases h
        rw [← name_of_ofName? hkind]
        cases kind <;> rfl
    · obtain ⟨t, ht, ha⟩ := bind_eq_ok_iff.mp h
      cases ha
      exact String.toList_ofList.trans (nameChars_of_parse ht)

/-- The name of an argument is never empty and is passed over at any depth. -/
theorem passes_name (a : ArgType) : a.name ≠ "" ∧ Signature.Passes 0 a.name.toList := by
  cases a with
  | value t =>
      have hchars : (value t).name.toList = t.nameChars := String.toList_ofList
      rw [hchars]
      refine ⟨?_, Signature.passes_nameChars t⟩
      intro hempty
      obtain ⟨c, cs, hname, -⟩ := exists_nameChars_eq_cons t
      rw [hempty, hname] at hchars
      cases hchars
  | transaction kind =>
      cases kind with
      | none => exact ⟨by decide, Signature.passes_of_alphanum (List.all_eq_true.mp rfl)⟩
      | some kind =>
          cases kind <;>
            exact ⟨by decide, Signature.passes_of_alphanum (List.all_eq_true.mp rfl)⟩

end ArgType

/-! ## Zeros in signatures -/

namespace Signature

/-- A signature without the zeros in front of the numbers in its types.  The name of the method
    stays as it is. -/
def unpadded (text : String) : String :=
  String.ofList (text.toList.takeWhile (fun c => decide (c ≠ '(')) ++
    unpad false (text.toList.dropWhile fun c => decide (c ≠ '(')))

/-- Whether a number in the types of a signature has a zero in front. -/
def IsPadded (text : String) : Prop :=
  Padded false (text.toList.dropWhile fun c => decide (c ≠ '('))

/-- Taking leading zeros off changes exactly the texts in which a number is padded. -/
theorem unpadded_eq_self_iff {text : String} : unpadded text = text ↔ ¬IsPadded text := by
  rw [IsPadded, ← unpad_eq_self_iff, ← String.toList_inj, unpadded, String.toList_ofList]
  constructor
  · intro h
    refine List.append_cancel_left (h.trans ?_)
    exact (List.takeWhile_append_dropWhile).symm
  · intro h
    rw [h, List.takeWhile_append_dropWhile]

/-- Zeros come off a list of names one name at a time, since a comma ends a number. -/
theorem unpad_intercalate (names : List (List Char)) :
    unpad false (List.intercalate [','] names) = List.intercalate [','] (names.map (unpad false)) := by
  induction names with
  | nil => rfl
  | cons x names ih =>
      cases names with
      | nil => simp
      | cons y names =>
          rw [List.intercalate_cons_cons, List.append_assoc, List.singleton_append,
            unpad_append (endsRun_cons (by decide)), unpad_cons (by decide), ih]
          simp

/-- The types of a signature lose their zeros one by one. -/
theorem unpadded_text {s : Signature} (hopen : '(' ∉ s.name.toList) :
    (unpadded s.text).toList = s.name.toList ++ '(' ::
      (List.intercalate [','] (s.args.map fun arg => unpad false arg.toList) ++
        ')' :: unpad false s.returns.toList) := by
  have hrun := ne_of_notMem hopen
  rw [unpadded, String.toList_ofList, toList_text, takeWhile_run hrun endsRun_separator,
    dropWhile_run hrun endsRun_separator, unpad_cons (by decide), unpad_append (endsRun_cons (by decide)),
    unpad_cons (by decide), unpad_intercalate, List.map_map]
  rfl

end Signature

/-! ## Methods -/

namespace Method

/-- The return type of a signature as it is read. -/
def returnType (s : Signature) : Result (Option Descriptor) :=
  if s.isVoid then .ok none else some <$> Descriptor.parse s.returns

theorem ofSignature_eq (text : String) :
    ofSignature text = (do
      let s ← Signature.parse text
      let args ← s.args.mapM ArgType.parse
      let returns ← returnType s
      return { name := s.name, args, returns }) := by
  refine bind_congr fun s => bind_congr fun args => ?_
  rw [returnType]
  split
  · rfl
  · rfl

/-- A method is read from a text part by part: name, arguments and result. -/
theorem ofSignature_eq_ok_iff {text : String} {m : Method} :
    ofSignature text = .ok m ↔ ∃ s args returns, Signature.parse text = .ok s ∧
      s.args.mapM ArgType.parse = .ok args ∧ returnType s = .ok returns ∧
      m = { name := s.name, args, returns } := by
  simp only [ofSignature_eq, bind_eq_ok_iff, pure_eq_ok_iff]
  constructor
  · rintro ⟨s, hs, args, hargs, returns, hreturns, rfl⟩
    exact ⟨s, args, returns, hs, hargs, hreturns, rfl⟩
  · rintro ⟨s, args, returns, hs, hargs, hreturns, rfl⟩
    exact ⟨s, hs, args, hargs, returns, hreturns, rfl⟩

/-- Arguments that are read are named as their texts are, without leading zeros. -/
theorem names_of_mapM {texts : List String} {args : List ArgType}
    (h : texts.mapM ArgType.parse = .ok args) :
    args.map (fun a => a.name.toList) = texts.map fun text => unpad false text.toList := by
  induction texts generalizing args with
  | nil =>
      cases h
      rfl
  | cons text texts ih =>
      obtain ⟨a, more, ha, hmore, rfl⟩ := mapM_cons_eq_ok_iff.mp h
      rw [List.map_cons, List.map_cons, ih hmore, ArgType.name_of_parse ha]

/-- A result that is read is named as its text is, without leading zeros. -/
theorem name_of_returnType {s : Signature} {returns : Option Descriptor}
    (h : returnType s = .ok returns) :
    ((returns.map Descriptor.name).getD voidName).toList = unpad false s.returns.toList := by
  rw [returnType] at h
  split at h
  · next hvoid =>
      cases h
      rw [show s.returns = voidName from beq_iff_eq.mp hvoid]
      rfl
  · cases hparse : Descriptor.parse s.returns with
    | error e =>
        rw [hparse] at h
        cases h
    | ok t =>
        rw [hparse] at h
        cases h
        exact String.toList_ofList.trans (nameChars_of_parse hparse)

/-- What is read from a signature is printed without the zeros in front of its numbers. -/
theorem text_of_ofSignature {text : String} {m : Method} (h : ofSignature text = .ok m) :
    m.signature.text = Signature.unpadded text := by
  obtain ⟨s, args, returns, hs, hargs, hreturns, rfl⟩ := ofSignature_eq_ok_iff.mp h
  obtain ⟨rfl, hopen⟩ := Signature.text_of_parse hs
  refine String.toList_injective ?_
  rw [Signature.unpadded_text hopen, Signature.toList_text, ← names_of_mapM hargs,
    ← name_of_returnType hreturns, signature, List.map_map]
  rfl

/-- **ONLY ZEROS ARE LOST**: a type or signature that is read is printed as the text that was read,
    but for the zeros in front of numbers, and as that very text exactly if it has none. -/
theorem signature_of_read (text : String) :
    (∀ t, Descriptor.parse text = .ok t →
      t.name = String.ofList (unpad false text.toList) ∧
        (t.name = text ↔ ¬Padded false text.toList)) ∧
    ∀ m, ofSignature text = .ok m →
      m.signature.text = Signature.unpadded text ∧
        (m.signature.text = text ↔ ¬Signature.IsPadded text) ∧
        (¬Signature.IsPadded text → m.selector = selectorOf text) := by
  constructor
  · intro t h
    have hname : t.name = String.ofList (unpad false text.toList) := by
      rw [Descriptor.name, nameChars_of_parse h]
    refine ⟨hname, ?_⟩
    rw [hname, ← unpad_eq_self_iff, ← String.toList_inj, String.toList_ofList]
  · intro m h
    have htext := text_of_ofSignature h
    refine ⟨htext, ?_, ?_⟩
    · rw [htext, Signature.unpadded_eq_self_iff]
    · intro hpadded
      rw [selector, Signature.selector, htext, Signature.unpadded_eq_self_iff.mpr hpadded]

/-- A zero in the name of a method is none of its types'. -/
theorem signature_of_read_agent :
    let text := "agent007(uint64[40],pay)byte[]"
    let m : Method := {
      name := "agent007",
      args := [.value (.staticArray (.uint 64) 40), .transaction (some .payment)],
      returns := some .dynamicBytes }
    ofSignature text = .ok m ∧ ¬Signature.IsPadded text ∧ m.signature.text = text ∧
      m.selector = selectorOf text := by
  intro text m
  have hread : ofSignature text = .ok m := by decide +kernel
  have hpadded : ¬Signature.IsPadded text :=
    Signature.unpadded_eq_self_iff.mp (by decide +kernel)
  obtain ⟨-, hsame, hselector⟩ := (signature_of_read text).2 m hread
  exact ⟨hread, hpadded, hsame.mpr hpadded, hselector hpadded⟩

/-- A width with a zero in front is taken for the width without it, under another selector. -/
theorem signature_of_read_padded :
    ∃ m, ofSignature "f(uint064)void" = .ok m ∧ m.signature.text = "f(uint64)void" ∧
      m.selector ≠ selectorOf "f(uint064)void" ∧
      ∃ t, Descriptor.parse "uint064" = .ok t ∧ t.name ≠ "uint064" := by
  refine ⟨{ name := "f", args := [.value (.uint 64)], returns := none }, ?_, ?_, ?_, ?_⟩
  · decide +kernel
  · decide +kernel
  · decide +kernel
  · exact ⟨.uint 64, by decide +kernel, by decide +kernel⟩

/-- The method that the signature of a method is read as. -/
def readBack (m : Method) : Method where
  name := m.name
  args := m.args.map ArgType.normal
  returns := m.returns.map Descriptor.normal

theorem signature_readBack (m : Method) : m.readBack.signature = m.signature := by
  have hargs : (m.args.map ArgType.normal).map ArgType.name = m.args.map ArgType.name := by
    rw [List.map_map]
    exact List.map_congr_left fun a _ => ArgType.name_normal a
  have hreturns : (m.returns.map Descriptor.normal).map Descriptor.name
      = m.returns.map Descriptor.name := by
    cases m.returns with
    | none => rfl
    | some t => exact congrArg some (Descriptor.name_normal t)
  rw [signature, signature, readBack, hargs, hreturns]

theorem ofSignature_text {m : Method} (hname : m.name ≠ "") (hopen : '(' ∉ m.name.toList)
    (hargs : ∀ a ∈ m.args, a.Permitted) (hreturns : ∀ t ∈ m.returns, t.Permitted) :
    ofSignature m.signature.text = .ok m.readBack := by
  have hnames : ∀ arg ∈ m.signature.args, arg ≠ "" ∧ Signature.Passes 0 arg.toList := by
    intro arg harg
    obtain ⟨a, -, rfl⟩ := List.mem_map.mp harg
    exact a.passes_name
  have hread : (m.args.map ArgType.name).mapM ArgType.parse = .ok (m.args.map ArgType.normal) := by
    generalize m.args = args at hargs
    induction args with
    | nil => rfl
    | cons a args ih =>
        refine mapM_cons_eq_ok_iff.mpr ⟨a.normal, args.map ArgType.normal, ?_, ?_, rfl⟩
        · exact ArgType.parse_name (hargs a List.mem_cons_self)
        · exact ih fun b hb => hargs b (List.mem_cons_of_mem _ hb)
  have hreturn : m.signature.returns ≠ "" ∧
      returnType m.signature = .ok (m.returns.map Descriptor.normal) := by
    cases m with
    | mk mname margs returns =>
        cases returns with
        | none => exact ⟨(by decide : voidName ≠ ""), rfl⟩
        | some t =>
            have ht := hreturns t rfl
            have hvoid : (t.name == voidName) = false :=
              beq_false_of_ne (ArgType.name_ne_reserved ht List.mem_cons_self)
            refine ⟨(ArgType.value t).passes_name.1, ?_⟩
            show (if t.name == voidName then .ok none else some <$> Descriptor.parse t.name)
              = (.ok (some t.normal) : Result (Option Descriptor))
            rw [hvoid, Descriptor.parse_name ht]
            rfl
  exact ofSignature_eq_ok_iff.mpr ⟨m.signature, _, _,
    Signature.parse_text hname hopen hnames hreturn.1, hread, hreturn.2, rfl⟩

/-- **SIGNATURES NAME THEIR METHODS**: the signature of a method is read as a method of the same
    name whose arguments are of the same kinds, with the same signature and selector. -/
theorem ofSignature_signature {m : Method} (hname : m.name ≠ "") (hopen : '(' ∉ m.name.toList)
    (hargs : ∀ a ∈ m.args, a.Permitted) (hreturns : ∀ t ∈ m.returns, t.Permitted) :
    ∃ m', ofSignature m.signature.text = .ok m' ∧ m'.name = m.name ∧
      m'.args.length = m.args.length ∧ List.Forall₂ ArgType.SameKind m.args m'.args ∧
      Option.Rel (fun t u => t.sameShape u = true) m.returns m'.returns ∧
      m'.signature.text = m.signature.text ∧ m'.selector = m.selector := by
  refine ⟨m.readBack, ofSignature_text hname hopen hargs hreturns, rfl, List.length_map _, ?_, ?_,
    ?_, ?_⟩
  · refine List.forall₂_map_right_iff.mpr (List.forall₂_same.mpr fun a _ => ?_)
    exact a.sameKind_normal
  · show Option.Rel _ m.returns (m.returns.map Descriptor.normal)
    cases m.returns with
    | none => exact .none
    | some t => exact .some (sameShape_normal t)
  · rw [signature_readBack]
  · rw [selector, selector, signature_readBack]

/-- A struct is read as a tuple, and an array of bytes as a byte string. -/
theorem ofSignature_signature_structured :
    let order := Descriptor.struct "Order" [("tag", .staticArray .byte 4), ("price", .ufixed 64 2)]
    let m : Method := {
      name := "place",
      args := [.value (.dynamicArray order), .transaction none, .value .account],
      returns := some (.tuple []) }
    m.name ≠ "" ∧ '(' ∉ m.name.toList ∧ (∀ a ∈ m.args, a.Permitted) ∧
      (∀ t ∈ m.returns, t.Permitted) ∧
      m.signature.text = "place((byte[4],ufixed64x2)[],txn,account)()" ∧
      ∃ m', ofSignature m.signature.text = .ok m' ∧ List.Forall₂ ArgType.SameKind m.args m'.args ∧
        m'.signature.text = m.signature.text := by
  intro order m
  have hwidth : (ufixed 64 2).NumbersPermitted :=
    ⟨⟨by decide, by decide, rfl⟩, by decide, by decide⟩
  have htag : (staticArray byte 4).Permitted := by
    refine .intro (by decide : 4 < Limits.length) ?_
    intro c hc
    rw [List.mem_singleton.mp hc]
    exact .of_leaf rfl trivial
  have horder : order.Permitted := by
    refine .intro trivial ?_
    intro c hc
    rcases List.mem_pair.mp hc with rfl | rfl
    · exact htag
    · exact .of_leaf rfl hwidth
  have hname : m.name ≠ "" := by decide
  have hopen : '(' ∉ m.name.toList := by decide
  have hargs : ∀ a ∈ m.args, a.Permitted := by
    intro a ha
    rcases List.mem_cons.mp ha with rfl | ha
    · refine .intro trivial ?_
      intro c hc
      rw [List.mem_singleton.mp hc]
      exact horder
    · rcases List.mem_pair.mp ha with rfl | rfl
      · trivial
      · exact .of_leaf rfl trivial
  have hreturns : ∀ t ∈ m.returns, t.Permitted := by
    intro t ht
    cases ht
    exact .of_leaf rfl trivial
  obtain ⟨m', hread, -, -, hkinds, -, htext, -⟩ := ofSignature_signature hname hopen hargs hreturns
  exact ⟨hname, hopen, hargs, hreturns, by decide +kernel, m', hread, hkinds, htext⟩

end Method

end AvmSandbox
