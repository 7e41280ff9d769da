import AvmSandbox.Proofs.Transaction.Lookups

/-! # Mentions — which resources an encoding looks up

    An encoding by index looks up every reference that the value mentions, one
    after the other, and each of them is appended when it is missing.  A failure
    takes nothing back: what was looked up by then stays in the arrays, and so
    does the reference whose index was too large.

    * `References.Knows` and `References.note`: what a lookup makes of the arrays,
      whether or not it succeeds;
    * `Descriptor.mentions`: the references in a value, in the order of its
      encoding;
    * `Encoding.LooksUp`: a computation that asks for resources in order, all of
      them if it succeeds and the first ones if it fails;
    * `Descriptor.looksUp_encodeIn`: an encoding asks for what the value mentions. -/

namespace AvmSandbox

/-! ## What a lookup leaves -/

namespace References

variable {refs later : References} {r : Resource} {rs : List Resource}

/-- Whether a resource has an index already, be it too large or not. -/
def Knows (refs : References) : Resource → Prop
  | .account address => address = refs.sender ∨ address ∈ refs.accounts
  | .asset id => id ∈ refs.assets
  | .application id => id = refs.called ∨ id ∈ refs.apps

instance (refs : References) : DecidablePred refs.Knows
  | .account address =>
      inferInstanceAs (Decidable (address = refs.sender ∨ address ∈ refs.accounts))
  | .asset id => inferInstanceAs (Decidable (id ∈ refs.assets))
  | .application id => inferInstanceAs (Decidable (id = refs.called ∨ id ∈ refs.apps))

/-- Arrays with a resource at the end of its array. -/
def append (refs : References) : Resource → References
  | .account address => { refs with accounts := refs.accounts ++ [address] }
  | .asset id => { refs with assets := refs.assets ++ [id] }
  | .application id => { refs with apps := refs.apps ++ [id] }

/-- Arrays that have a resource, which is appended when it is missing. -/
def note (refs : References) (r : Resource) : References :=
  if refs.Knows r then refs else refs.append r

/-- What is in a list has its place there. -/
theorem position_of_mem {α : Type} [DecidableEq α] {x : α} {xs : List α} (h : x ∈ xs) :
    (position x xs).2 = xs := by
  rw [position]
  cases hidx : xs.idxOf? x with
  | some i => rfl
  | none => exact absurd h (List.idxOf?_eq_none_iff.mp hidx)

/-- What is not is given a place at the end. -/
theorem position_of_not_mem {α : Type} [DecidableEq α] {x : α} {xs : List α} (h : x ∉ xs) :
    (position x xs).2 = xs ++ [x] := by
  rw [position, List.idxOf?_eq_none_iff.mpr h]

theorem note_of_knows (h : refs.Knows r) : refs.note r = refs := if_pos h

/-- A reference that is new is added behind the others. -/
theorem note_of_not_knows (h : ¬refs.Knows r) : refs.note r = refs.append r := if_neg h

/-- **A LOOKUP NOTES ITS RESOURCE**, also when the index does not fit a byte. -/
theorem run_indexOf_snd (r : Resource) (refs : References) :
    ((indexOf r).run refs).2 = refs.note r := by
  by_cases hknows : refs.Knows r
  · rw [note_of_knows hknows]
    cases r with
    | account address =>
        rw [indexOf, run_accountIndex]
        by_cases hsender : address = refs.sender
        · rw [if_pos hsender]
        · rw [if_neg hsender, position_of_mem (hknows.resolve_left hsender)]
    | asset id =>
        rw [indexOf, run_assetIndex, position_of_mem hknows]
    | application id =>
        rw [indexOf, run_applicationIndex]
        by_cases hcalled : id = refs.called
        · rw [if_pos hcalled]
        · rw [if_neg hcalled, position_of_mem (hknows.resolve_left hcalled)]
  · rw [note_of_not_knows hknows]
    cases r with
    | account address =>
        obtain ⟨hsender, hmem⟩ := not_or.mp hknows
        rw [indexOf, run_accountIndex, if_neg hsender, position_of_not_mem hmem]
        rfl
    | asset id =>
        rw [indexOf, run_assetIndex, position_of_not_mem hknows]
        rfl
    | application id =>
        obtain ⟨hcalled, hmem⟩ := not_or.mp hknows
        rw [indexOf, run_applicationIndex, if_neg hcalled, position_of_not_mem hmem]
        rfl

/-- A lookup fails when the index does not fit a byte. -/
theorem run_indexOf_eq_error {fault : Fault} (h : ((indexOf r).run refs).1 = .error fault) :
    ∃ n, Limits.oneByte < n ∧ fault = .unresolvedReference (.indexTooLarge n) := by
  have hbyte : ∀ n, oneByte n = .error fault →
      Limits.oneByte < n ∧ fault = .unresolvedReference (.indexTooLarge n) := by
    intro n h
    rw [oneByte] at h
    by_cases hle : n ≤ Limits.oneByte
    · rw [if_pos hle] at h
      cases h
    · rw [if_neg hle] at h
      cases h
      exact ⟨Nat.not_le.mp hle, rfl⟩
  cases r with
  | account address =>
      rw [indexOf, run_accountIndex] at h
      by_cases hsender : address = refs.sender
      · rw [if_pos hsender] at h
        cases h
      · rw [if_neg hsender] at h
        exact ⟨_, hbyte _ h⟩
  | asset id => exact ⟨_, hbyte _ h⟩
  | application id =>
      rw [indexOf, run_applicationIndex] at h
      by_cases hcalled : id = refs.called
      · rw [if_pos hcalled] at h
        cases h
      · rw [if_neg hcalled] at h
        exact ⟨_, hbyte _ h⟩

/-- Noting a reference loses none. -/
theorem grows_note (refs : References) (r : Resource) : refs.Grows (refs.note r) := by
  rw [← run_indexOf_snd]
  exact ends_indexOf r refs

theorem grows_foldl_note (refs : References) (rs : List Resource) :
    refs.Grows (rs.foldl note refs) := by
  induction rs generalizing refs with
  | nil => exact .refl refs
  | cons r rs ih => exact (grows_note refs r).trans (ih (refs.note r))

/-- A list with one reference more is another one. -/
theorem append_ne (refs : References) (r : Resource) : refs.append r ≠ refs := by
  intro h
  cases r with
  | account address =>
      exact absurd (congrArg (fun refs => refs.accounts.length) h) (by simp [append])
  | asset id => exact absurd (congrArg (fun refs => refs.assets.length) h) (by simp [append])
  | application id => exact absurd (congrArg (fun refs => refs.apps.length) h) (by simp [append])

/-- Noting changes nothing exactly for what is known. -/
theorem note_eq_self_iff : refs.note r = refs ↔ refs.Knows r := by
  by_cases h : refs.Knows r
  · exact iff_of_true (note_of_knows h) h
  · rw [note_of_not_knows h]
    exact iff_of_false (append_ne refs r) h

/-- Arrays that have grown from each other are the same. -/
theorem Grows.antisymm (h : refs.Grows later) (h' : later.Grows refs) : later = refs := by
  obtain ⟨sender, called, accounts, assets, apps⟩ := refs
  obtain ⟨sender', called', accounts', assets', apps'⟩ := later
  have heq {α : Type} {xs ys : List α} (h : xs <+: ys) (h' : ys <+: xs) : ys = xs :=
    (h.eq_of_length_le h'.length_le).symm
  have haccounts : accounts' = accounts := heq h.accounts h'.accounts
  have hassets : assets' = assets := heq h.assets h'.assets
  have happs : apps' = apps := heq h.apps h'.apps
  have hsender : sender' = sender := h.sender
  have hcalled : called' = called := h.called
  subst haccounts hassets happs hsender hcalled
  rfl

/-- **NOTHING IS APPENDED WHERE ALL IS KNOWN**, and only there. -/
theorem foldl_note_eq_self_iff : rs.foldl note refs = refs ↔ ∀ r ∈ rs, refs.Knows r := by
  induction rs with
  | nil => simp
  | cons r rs ih =>
      rw [List.foldl_cons, List.forall_mem_cons, ← note_eq_self_iff (r := r)]
      constructor
      · intro h
        -- nothing that was appended to the arrays would go away again
        have hfirst : refs.note r = refs := by
          refine (grows_note refs r).antisymm ?_
          have hgrows := grows_foldl_note (refs.note r) rs
          rwa [h] at hgrows
        rw [hfirst] at h
        exact ⟨hfirst, ih.mp h⟩
      · rintro ⟨hfirst, hothers⟩
        rw [hfirst]
        exact ih.mpr hothers

end References

/-! ## What an encoding looks up -/

namespace Encoding

open References (note)

/-- A layout behind lookups, in which the resources have been noted. -/
def noteAll (rs : List Resource) (layout : Layout) : Layout :=
  layout.map fun refs => rs.foldl note refs

/-- References are noted in the order in which they come. -/
theorem noteAll_append (rs ss : List Resource) (layout : Layout) :
    noteAll (rs ++ ss) layout = noteAll ss (noteAll rs layout) := by
  cases layout with
  | none => rfl
  | some refs => exact congrArg some List.foldl_append

theorem noteAll_nil (layout : Layout) : noteAll [] layout = layout := by
  cases layout with
  | none => rfl
  | some refs => rfl

variable {α β : Type} {rs ss : List Resource}

/-- Whether a computation looks resources up in order: all of them when it succeeds, and the first
    ones when it fails. -/
def LooksUp (rs : List Resource) (action : Encoding α) : Prop :=
  ∀ layout, ∃ asked, asked <+: rs ∧ (action.run layout).2 = noteAll asked layout ∧
    ∀ a, (action.run layout).1 = .ok a → asked = rs

/-- A result that is at hand looks nothing up. -/
theorem looksUp_lift (r : Result α) : LooksUp [] (liftM r) := by
  intro layout
  exact ⟨[], List.prefix_refl _, (noteAll_nil layout).symm, fun _ _ => rfl⟩

/-- A failure stands for all that would have come behind it. -/
theorem looksUp_throw (rs : List Resource) (e : Fault) :
    LooksUp rs (liftM (.error e : Result α) : Encoding α) := by
  intro layout
  refine ⟨[], List.nil_prefix, (noteAll_nil layout).symm, ?_⟩
  intro a h
  cases h

/-- A sequence looks up what its first step does and, if that succeeds, what the second one does. -/
theorem looksUp_bind {x : Encoding α} {f : α → Encoding β} (hx : LooksUp rs x)
    (hf : ∀ a, LooksUp ss (f a)) : LooksUp (rs ++ ss) (x >>= f) := by
  intro layout
  obtain ⟨asked, hasked, hafter, hall⟩ := hx layout
  rw [Action.run_bind]
  rcases hrun : x.run layout with ⟨e | a, middle⟩
  · rw [hrun] at hafter
    refine ⟨asked, hasked.trans (List.prefix_append rs ss), hafter, ?_⟩
    intro b h
    cases h
  · rw [hrun] at hafter hall
    obtain rfl : asked = rs := hall a rfl
    obtain rfl : middle = noteAll asked layout := hafter
    obtain ⟨more, hmore, hend, hdone⟩ := hf a (noteAll asked layout)
    refine ⟨asked ++ more, (List.prefix_append_right_inj asked).mpr hmore, ?_, ?_⟩
    · rw [noteAll_append]
      exact hend
    · intro b h
      rw [hdone b h]

/-- Steps behind one that leaves the layout alone. -/
theorem looksUp_lift_bind (r : Result α) {f : α → Encoding β}
    (hf : ∀ a, r = .ok a → LooksUp rs (f a)) : LooksUp rs (liftM r >>= f) := by
  cases r with
  | error e =>
      intro layout
      rw [Action.run_lift_bind]
      exact looksUp_throw rs e layout
  | ok a =>
      intro layout
      rw [Action.run_lift_bind]
      exact hf a rfl layout

/-- Where nothing more is looked up behind a step. -/
theorem looksUp_bind_silent {x : Encoding α} {f : α → Encoding β} (hx : LooksUp rs x)
    (hf : ∀ a, LooksUp [] (f a)) : LooksUp rs (x >>= f) := by
  have h := looksUp_bind hx hf
  rwa [List.append_nil] at h

/-- Looking nothing up passes from components to a row. -/
theorem inherited_silent : Inherited fun _ action => LooksUp [] action :=
  ⟨looksUp_lift, looksUp_bind_silent⟩

/-- A check in front refuses before anything is looked up. -/
theorem looksUp_checked {refused : Prop} [Decidable refused] {e : Fault} {x : Encoding α}
    (hx : ¬refused → LooksUp rs x) :
    LooksUp rs (if refused then (do throwThe Fault e; x) else x) := by
  by_cases h : refused
  · rw [if_pos h]
    intro layout
    exact looksUp_throw rs e layout
  · rw [if_neg h]
    exact hx h

/-- A reference by index is looked up, also when it then cannot be written. -/
theorem looksUp_reference (r : Resource) (byValue : Bytes) :
    LooksUp [r] (reference (References.indexOf r) byValue) := by
  intro layout
  refine ⟨[r], List.prefix_refl _, ?_, fun _ _ => rfl⟩
  rw [reference, Action.run_get_bind]
  cases layout with
  | none => rfl
  | some refs =>
      have hnote := References.run_indexOf_snd r refs
      rcases hrun : (References.indexOf r).run refs with ⟨result, after⟩
      rw [hrun] at hnote
      obtain rfl : after = refs.note r := hnote
      simp only [hrun, Action.run_set_bind]
      cases result with
      | ok i => rfl
      | error e => rfl

end Encoding

namespace Descriptor

open Encoding

mutual

/-- The references in a value, in the order in which they are encoded.  What does not belong to the
    type has none. -/
def mentions : Descriptor → Value → List Resource
  | account, v => (v.asAddress.toOption.map .account).toList
  | asset, v => (v.asU64.toOption.map .asset).toList
  | application, v => (v.asU64.toOption.map .application).toList
  | staticArray t n, v =>
      ((staticArray t n).rowItems v).toOption.getD [] |>.flatMap fun v => mentions t v
  | dynamicArray t, v => v.arrayItems.toOption.getD [] |>.flatMap fun v => mentions t v
  | tuple ts, v => rowMentions ts (((tuple ts).rowItems v).toOption.getD [])
  | struct _ fs, v => fieldMentions fs ((structItems fs v).toOption.getD [])
  | _, _ => []

/-- The references in a row of values. -/
def rowMentions : List Descriptor → List Value → List Resource
  | t :: ts, v :: vs => mentions t v ++ rowMentions ts vs
  | _, _ => []

/-- The references in the fields of a struct. -/
def fieldMentions : List (String × Descriptor) → List Value → List Resource
  | (_, t) :: fs, v :: vs => mentions t v ++ fieldMentions fs vs
  | _, _ => []

end

variable {t : Descriptor} {ts : List Descriptor} {v : Value} {items : List Value}

@[simp] theorem rowMentions_nil_left (items : List Value) : rowMentions [] items = [] := by
  simp [rowMentions]

@[simp] theorem rowMentions_nil_right (ts : List Descriptor) : rowMentions ts [] = [] := by
  cases ts <;> simp [rowMentions]

/-- The references in values with their types. -/
def allMentions (entries : List (Descriptor × Value)) : List Resource :=
  entries.flatMap fun e => e.1.mentions e.2

@[simp] theorem allMentions_nil : allMentions [] = [] := rfl

@[simp] theorem allMentions_cons (e : Descriptor × Value) (es : List (Descriptor × Value)) :
    allMentions (e :: es) = e.1.mentions e.2 ++ allMentions es := List.flatMap_cons

theorem allMentions_append (es fs : List (Descriptor × Value)) :
    allMentions (es ++ fs) = allMentions es ++ allMentions fs := List.flatMap_append

/-- A row mentions what its components do, from left to right. -/
theorem rowMentions_eq (ts : List Descriptor) (items : List Value) :
    rowMentions ts items = allMentions (ts.zip items) := by
  induction ts generalizing items with
  | nil => rw [rowMentions_nil_left, List.zip_nil_left, allMentions_nil]
  | cons t ts ih =>
      cases items with
      | nil => rw [rowMentions_nil_right, List.zip_nil_right, allMentions_nil]
      | cons v items => rw [rowMentions, ih, List.zip_cons_cons, allMentions_cons]

/-- Fields mention what a row of their types does. -/
theorem fieldMentions_eq (fs : List (String × Descriptor)) (items : List Value) :
    fieldMentions fs items = rowMentions (fs.map Prod.snd) items := by
  induction fs generalizing items with
  | nil => simp [fieldMentions]
  | cons f fs ih =>
      obtain ⟨name, t⟩ := f
      cases items with
      | nil => simp [fieldMentions]
      | cons v items => rw [fieldMentions, ih, List.map_cons, rowMentions]

/-- So do the elements of an array. -/
theorem flatMap_mentions (t : Descriptor) (items : List Value) :
    (items.flatMap fun v => t.mentions v)
      = rowMentions (List.replicate items.length t) items := by
  induction items with
  | nil => rw [rowMentions_nil_right, List.flatMap_nil]
  | cons v items ih =>
      rw [List.flatMap_cons, List.length_cons, List.replicate_succ, rowMentions, ih]

/-- Only references mention anything. -/
theorem mentions_leaf (hseq : t.isSequence = false) (hr : t.isReference = false) (v : Value) :
    t.mentions v = [] := by
  cases t with
  | account | asset | application => cases hr
  | staticArray _ _ | dynamicArray _ | tuple _ | struct _ _ => cases hseq
  | _ => simp [mentions]

/-- What is neither a row nor a reference is encoded without a lookup. -/
theorem looksUp_leaf (hseq : t.isSequence = false) (hr : t.isReference = false) (v : Value) :
    LooksUp (t.mentions v) (t.encodeIn v) := by
  rw [mentions_leaf hseq hr]
  exact inherited_silent.leaf hseq hr v

/-- A row looks up what its components mention, one after the other. -/
theorem looksUp_encodeRow (hts : ∀ t ∈ ts, ∀ v, LooksUp (t.mentions v) (t.encodeIn v))
    (items : List Value) : LooksUp (rowMentions ts items) (encodeRow ts items) := by
  have hpart : ∀ t ∈ ts, ∀ v, LooksUp (t.mentions v) (partOf t t.encodeIn v) := by
    intro t ht v
    rw [partOf]
    by_cases hb : t.isBool = true
    · obtain rfl := eq_bool_of_isBool hb
      rw [mentions_leaf rfl rfl]
      exact inherited_silent.lift_bind _ fun b => inherited_silent.pure _
    · rw [if_neg hb]
      exact looksUp_bind_silent (hts t ht v) fun bytes => inherited_silent.pure _
  clear hts
  induction ts generalizing items with
  | nil =>
      rw [rowMentions_nil_left, encodeRow]
      · exact inherited_silent.pure _
      · simp
  | cons t ts ih =>
      rw [List.forall_mem_cons] at hpart
      cases items with
      | nil =>
          rw [rowMentions_nil_right, encodeRow]
          · exact inherited_silent.pure _
          · simp
      | cons v items =>
          rw [rowMentions, encodeRow]
          refine looksUp_bind (hpart.1 v) fun part => ?_
          exact looksUp_bind_silent (ih items hpart.2) fun parts => inherited_silent.pure _

/-- **AN ENCODING LOOKS UP WHAT THE VALUE MENTIONS**, by induction on the type. -/
theorem looksUp_encodeIn (t : Descriptor) (v : Value) : LooksUp (t.mentions v) (t.encodeIn v) := by
  induction t using Descriptor.inductOn generalizing v with
  | step t ih =>
      cases t with
      -- a reference is looked up once its value is known to be one
      | account =>
          rw [encodeIn, mentions]
          refine looksUp_lift_bind _ fun a ha => ?_
          rw [ha]
          exact looksUp_reference (.account a) a.bytes
      | asset =>
          rw [encodeIn, mentions]
          refine looksUp_lift_bind _ fun id hid => ?_
          rw [hid]
          exact looksUp_reference (.asset id) (Bytes.ofUInt64 id)
      | application =>
          rw [encodeIn, mentions]
          refine looksUp_lift_bind _ fun id hid => ?_
          rw [hid]
          exact looksUp_reference (.application id) (Bytes.ofUInt64 id)
      -- components are encoded in order, and laying them out looks up nothing
      | staticArray t n =>
          rw [encodeIn, mentions]
          refine looksUp_lift_bind _ fun items hitems => looksUp_checked fun hlen => ?_
          have hrow : (staticArray t n).rowItems v = .ok items :=
            checked_eq_ok_iff.mpr ⟨hitems, not_not.mp hlen⟩
          rw [hrow, ← encodeRow_replicate]
          show LooksUp (items.flatMap _) _
          rw [flatMap_mentions]
          refine looksUp_bind_silent (looksUp_encodeRow ?_ items) fun parts => looksUp_lift _
          intro c hc
          exact ih c (List.mem_singleton.mpr (List.eq_of_mem_replicate hc))
      | dynamicArray t =>
          rw [encodeIn, mentions]
          refine looksUp_lift_bind _ fun items hitems => ?_
          rw [hitems, ← encodeRow_replicate]
          show LooksUp (items.flatMap _) _
          rw [flatMap_mentions]
          refine looksUp_bind_silent (looksUp_encodeRow ?_ items) fun parts => ?_
          · intro c hc
            exact ih c (List.mem_singleton.mpr (List.eq_of_mem_replicate hc))
          · exact inherited_silent.lift_bind _ fun body =>
              inherited_silent.lift_bind _ fun count => inherited_silent.pure _
      | tuple ts =>
          rw [encodeIn, mentions]
          refine looksUp_lift_bind _ fun items hitems => looksUp_checked fun hlen => ?_
          have hrow : (tuple ts).rowItems v = .ok items :=
            checked_eq_ok_iff.mpr ⟨hitems, not_not.mp hlen⟩
          rw [hrow]
          exact looksUp_bind_silent (looksUp_encodeRow ih items) fun parts => looksUp_lift _
      | struct a fs =>
          rw [encodeIn, mentions]
          refine looksUp_lift_bind _ fun items hitems => ?_
          rw [hitems, encodeFields_eq, fieldMentions_eq]
          exact looksUp_bind_silent (looksUp_encodeRow ih items) fun parts => looksUp_lift _
      | _ => exact looksUp_leaf rfl rfl v

/-- The references in a pair, in the order of its encoding. -/
example : (tuple [asset, staticArray application 2]).mentions
    (.tuple [.asset 5, .list [.application 7, .application 8]])
      = [.asset 5, .application 7, .application 8] := rfl

/-- The bound on an encoding is checked behind all lookups. -/
theorem looksUp_encodeWithin (t : Descriptor) (max : Nat) (v : Value) :
    LooksUp (t.mentions v) (t.encodeWithin max v) := by
  rw [encodeWithin]
  refine looksUp_bind_silent (looksUp_encodeIn t v) fun bytes => ?_
  exact inherited_silent.checked (inherited_silent.pure bytes)

end Descriptor

end AvmSandbox
