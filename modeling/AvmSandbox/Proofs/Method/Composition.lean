import AvmSandbox.Method.Basic
import AvmSandbox.Proofs.Action
import AvmSandbox.Proofs.Table
import Mathlib.Data.List.Forall2
import Mathlib.Data.List.Induction
import Mathlib.Data.List.Nodup

/-! # Composition — contracts that are built on others

    A composition goes through the methods of its bases and then through its
    own.  A method takes the place of the one of its name that came before it,
    so a name keeps the place of its first method and stands for its last.  A
    contract that was composed has no name twice, and going through its methods
    once more changes nothing: it does not matter in how many steps a contract
    is composed.

    * `map_name_upsertMethod`, `find?_upsertMethod`: one method;
    * `map_name_merge`, `method?_merge`, `merge_of_nodup`: a row of them;
    * `Registry.inherited_eq_ok_iff`, `Registry.inherited_of_missing`: the bases;
    * `Registry.composition_of_bases`: the composition. -/

namespace AvmSandbox

variable {m : Method} {ms : List Method} {name : String}

/-! ## First occurrences -/

/-- A last element is kept unless it has occurred. -/
theorem eraseDups_concat (xs : List String) (x : String) :
    (xs ++ [x]).eraseDups = if x ∈ xs then xs.eraseDups else xs.eraseDups ++ [x] := by
  rw [List.eraseDups_append, List.removeAll]
  by_cases hx : x ∈ xs
  · rw [if_pos hx, List.filter_cons_of_neg (by simpa using hx)]
    exact List.append_nil _
  · rw [if_neg hx, List.filter_cons_of_pos (by simpa using hx)]
    rfl

theorem nodup_eraseDups (xs : List String) : xs.eraseDups.Nodup := by
  induction xs using List.reverseRecOn with
  | nil => exact List.nodup_nil
  | append_singleton xs x ih =>
      rw [eraseDups_concat]
      by_cases hx : x ∈ xs
      · rw [if_pos hx]
        exact ih
      · rw [if_neg hx]
        refine List.Nodup.append ih (List.nodup_singleton x) ?_
        intro y hy hyx
        rw [List.mem_singleton.mp hyx, List.mem_eraseDups] at hy
        exact hx hy

/-! ## One method -/

/-- A method adds its name at the end, unless the name is there. -/
theorem map_name_upsertMethod (m : Method) (ms : List Method) :
    (upsertMethod m ms).map Method.name =
      if m.name ∈ ms.map Method.name then ms.map Method.name
      else ms.map Method.name ++ [m.name] := by
  induction ms with
  | nil => rfl
  | cons n rest ih =>
      rw [upsertMethod]
      by_cases hn : n.name = m.name
      · rw [if_pos hn, List.map_cons, List.map_cons, hn, if_pos List.mem_cons_self]
      · rw [if_neg hn, List.map_cons, List.map_cons, ih]
        by_cases hm : m.name ∈ rest.map Method.name
        · rw [if_pos hm, if_pos (List.mem_cons_of_mem _ hm)]
        · have hnot : m.name ∉ n.name :: rest.map Method.name := by
            intro h
            rcases List.mem_cons.mp h with h | h
            · exact hn h.symm
            · exact hm h
          rw [if_neg hm, if_neg hnot, List.cons_append]

/-- A method is found under its name, and every other name stands for what it stood for. -/
theorem find?_upsertMethod (m : Method) (ms : List Method) (name : String) :
    (upsertMethod m ms).find? (fun n => n.name == name) =
      if m.name = name then some m else ms.find? fun n => n.name == name := by
  induction ms with
  | nil =>
      show List.find? _ [m] = _
      by_cases hm : m.name = name
      · rw [if_pos hm, List.find?_cons_of_pos (by simpa using hm)]
      · rw [if_neg hm, List.find?_cons_of_neg (by simpa using hm)]
  | cons n rest ih =>
      rw [upsertMethod]
      by_cases hn : n.name = m.name
      · rw [if_pos hn]
        by_cases hm : m.name = name
        · rw [if_pos hm, List.find?_cons_of_pos (by simpa using hm)]
        · have hother : ¬n.name = name := by
            rw [hn]
            exact hm
          rw [if_neg hm, List.find?_cons_of_neg (by simpa using hm),
            List.find?_cons_of_neg (by simpa using hother)]
      · rw [if_neg hn]
        by_cases hname : n.name = name
        · have hm : ¬m.name = name := by
            intro hm
            exact hn (hname.trans hm.symm)
          rw [if_neg hm, List.find?_cons_of_pos (by simpa using hname),
            List.find?_cons_of_pos (by simpa using hname)]
        · rw [List.find?_cons_of_neg (by simpa using hname), ih,
            List.find?_cons_of_neg (by simpa using hname)]

/-- A method of a new name comes last. -/
theorem upsertMethod_of_new (h : m.name ∉ ms.map Method.name) : upsertMethod m ms = ms ++ [m] := by
  induction ms with
  | nil => rfl
  | cons n rest ih =>
      rw [List.map_cons, List.mem_cons, not_or] at h
      rw [upsertMethod, if_neg (Ne.symm h.1), ih h.2, List.cons_append]

/-! ## Methods one after the other -/

namespace Contract

variable {c : Contract}

theorem name_merge (c : Contract) (ms : List Method) : (c.merge ms).name = c.name := by
  induction ms generalizing c with
  | nil => rfl
  | cons m ms ih => exact ih (c.upsert m)

theorem methods_merge (c : Contract) (ms : List Method) :
    (c.merge ms).methods = ms.foldl (fun done m => upsertMethod m done) c.methods := by
  induction ms generalizing c with
  | nil => rfl
  | cons m ms ih => exact ih (c.upsert m)

theorem merge_append (c : Contract) (ms more : List Method) :
    c.merge (ms ++ more) = (c.merge ms).merge more :=
  List.foldl_append

/-- The last method of a row counts. -/
theorem merge_concat (c : Contract) (ms : List Method) (m : Method) :
    c.merge (ms ++ [m]) = (c.merge ms).upsert m :=
  List.foldl_append

/-- **NAMES STAND IN THE ORDER OF THEIR FIRST METHODS**, each of them once. -/
theorem map_name_merge (contractName : String) (ms : List Method) :
    (Contract.merge { name := contractName } ms).methods.map Method.name
      = (ms.map Method.name).eraseDups := by
  -- from the end, since the last method meets all others
  induction ms using List.reverseRecOn with
  | nil => rfl
  | append_singleton ms m ih =>
      rw [merge_concat, List.map_append, List.map_singleton, eraseDups_concat]
      show (upsertMethod m _).map Method.name = _
      rw [map_name_upsertMethod, ih]
      by_cases hm : m.name ∈ ms.map Method.name
      · rw [if_pos hm, if_pos (List.mem_eraseDups.mpr hm)]
      · rw [if_neg hm, if_neg (mt List.mem_eraseDups.mp hm)]

/-- **A NAME STANDS FOR THE LAST METHOD** that was given under it. -/
theorem method?_merge (c : Contract) (ms : List Method) (name : String) :
    (c.merge ms).method? name
      = (ms.reverse.find? fun m => m.name == name).or (c.method? name) := by
  induction ms generalizing c with
  | nil => rfl
  | cons m ms ih =>
      have hfirst : (c.upsert m).method? name =
          ([m].find? fun m => m.name == name).or (c.method? name) := by
        show (upsertMethod m c.methods).find? _ = _
        rw [find?_upsertMethod]
        by_cases hm : m.name = name
        · rw [if_pos hm, List.find?_cons_of_pos (by simpa using hm), Option.some_or]
        · rw [if_neg hm, List.find?_cons_of_neg (by simpa using hm)]
          rfl
      rw [List.reverse_cons, List.find?_append, Option.or_assoc, ← hfirst]
      exact ih (c.upsert m)

/-- Going through methods of different names lists them as they are. -/
theorem methods_merge_of_nodup {contractName : String} (h : (ms.map Method.name).Nodup) :
    (Contract.merge { name := contractName } ms).methods = ms := by
  induction ms using List.reverseRecOn with
  | nil => rfl
  | append_singleton ms m ih =>
      rw [List.map_append, List.nodup_append] at h
      obtain ⟨hms, -, hdisjoint⟩ := h
      rw [merge_concat]
      show upsertMethod m _ = _
      rw [ih hms, upsertMethod_of_new]
      intro hm
      exact hdisjoint _ hm _ (List.mem_singleton_self _) rfl

/-- **COMPOSING AGAIN CHANGES NOTHING**: what was gone through once may be gone through again
    before anything else. -/
theorem methods_merge_again (contractName other : String) (ms more : List Method) :
    (Contract.merge { name := contractName }
        ((Contract.merge { name := other } ms).methods ++ more)).methods
      = (Contract.merge { name := other } (ms ++ more)).methods := by
  have hnodup : ((Contract.merge { name := other } ms).methods.map Method.name).Nodup := by
    rw [map_name_merge]
    exact nodup_eraseDups _
  rw [merge_append, merge_append, methods_merge, methods_merge_of_nodup hnodup,
    methods_merge _ more]

end Contract

/-! ## Compositions -/

namespace Registry

variable {r r' : Registry} {key : String} {bases : List String} {own c : Contract}

theorem contract_eq_ok_iff : r.contract key = .ok c ↔ r.get? key = some c := by
  rw [contract]
  cases r.get? key with
  | none => simp
  | some d => simp

theorem contract_insert (r : Registry) (key : String) (c : Contract) (other : String) :
    Registry.contract (r.insert key c) other = if other = key then .ok c else r.contract other := by
  rw [contract, Table.get?_insert]
  by_cases h : other = key
  · rw [if_pos h, if_pos h]
  · rw [if_neg h, if_neg h]
    rfl

/-- The methods of registered contracts are taken over one contract after the other. -/
theorem inherited_of_bases {cs : List Contract}
    (hbases : List.Forall₂ (fun base c => r.contract base = .ok c) bases cs) :
    r.inherited bases = .ok (cs.flatMap Contract.methods) := by
  have hmapM : bases.mapM r.contract = .ok cs := by
    induction hbases with
    | nil => rfl
    | cons hbase _ ih => exact mapM_cons_eq_ok_iff.mpr ⟨_, _, hbase, ih, rfl⟩
  rw [inherited, hmapM, ok_bind]
  rfl

/-- The first base that is missing is reported. -/
theorem inherited_of_missing {front back : List String} {base : String}
    (hfront : ∀ b ∈ front, r.contains b = true) (hbase : r.contains base = false) :
    r.inherited (front ++ base :: back) = .error (.unregistered base) := by
  have hmissing : r.contract base = .error (.unregistered base) := by
    rw [contract, Table.contains_eq_false_iff.mp hbase]
  have hmapM : (front ++ base :: back).mapM r.contract = .error (.unregistered base) := by
    induction front with
    | nil =>
        rw [List.nil_append, List.mapM_cons, hmissing]
        rfl
    | cons b front ih =>
        rw [List.forall_mem_cons] at hfront
        obtain ⟨c, hc⟩ := Table.contains_eq_true_iff.mp hfront.1
        rw [List.cons_append, List.mapM_cons, contract_eq_ok_iff.mpr hc, ok_bind, ih hfront.2]
        rfl
  rw [inherited, hmapM]
  rfl

/-- Whether a composition goes through the given methods: those of its bases, one contract after
    the other, and then its own. -/
def GoesThrough (r : Registry) (bases : List String) (own : Contract) (ms : List Method) : Prop :=
  ∃ cs, List.Forall₂ (fun base c => r.contract base = .ok c) bases cs ∧
    ms = cs.flatMap Contract.methods ++ own.methods

/-- The registry to go on with, which is the same one when the composition fails. -/
def afterCompose (r : Registry) (key : String) (bases : List String) (own : Contract) :
    Registry :=
  match r.compose key bases own with
  | .ok (_, r') => r'
  | .error _ => r

theorem compose_of_goesThrough {ms : List Method} (key : String) (h : r.GoesThrough bases own ms) :
    r.compose key bases own = .ok (Contract.merge { name := own.name } ms,
      r.insert key (Contract.merge { name := own.name } ms)) := by
  obtain ⟨cs, hbases, rfl⟩ := h
  rw [compose, inherited_of_bases hbases, ok_bind]
  rfl

/-- A single base is gone through as it is registered. -/
theorem goesThrough_single (own : Contract) (hkey : r.contract key = .ok c) :
    r.GoesThrough [key] own (c.methods ++ own.methods) := by
  refine ⟨[c], .cons hkey .nil, ?_⟩
  rw [List.flatMap_singleton]

/-- **COMPOSITION**: a contract that is composed of registered bases is registered under its key,
    and no other entry changes.  Its methods have different names, in the order in which the names
    first occur, and a name stands for the last method that was given under it.  A contract that
    is built on it has the methods of one that is composed of everything at once.  When a base is
    missing, the first such base is reported and the registry stays as it was. -/
theorem composition_of_bases (r : Registry) (key : String) (bases : List String)
    (own : Contract) :
    (∀ ms, r.GoesThrough bases own ms →
      ∃ c r', r.compose key bases own = .ok (c, r') ∧
        (r'.contract key = .ok c ∧ ∀ other, other ≠ key → r'.contract other = r.contract other) ∧
        c.name = own.name ∧
        (c.methods.map Method.name).Nodup ∧
        c.methods.map Method.name = (ms.map Method.name).eraseDups ∧
        (∀ name, c.method? name = ms.reverse.find? fun m => m.name == name) ∧
        ∀ (later : String) (more : Contract), ∃ twice r'',
          r'.compose later [key] more = .ok (twice, r'') ∧
          ∀ (flat : Registry) (all : List String) (last : Contract),
            flat.GoesThrough all last (ms ++ more.methods) →
            ∃ once flat', flat.compose later all last = .ok (once, flat') ∧
              once.methods = twice.methods) ∧
    ((∃ base ∈ bases, r.contains base = false) →
      ∃ missing, bases.find? (fun base => !r.contains base) = some missing ∧
        r.compose key bases own = .error (.unregistered missing) ∧
        r.afterCompose key bases own = r) := by
  constructor
  · intro ms hms
    have hkey := contract_insert r key (Contract.merge { name := own.name } ms)
    refine ⟨_, _, compose_of_goesThrough key hms, ⟨?_, ?_⟩, Contract.name_merge _ ms, ?_,
      Contract.map_name_merge own.name ms, ?_, ?_⟩
    · rw [hkey, if_pos rfl]
    · intro other hother
      rw [hkey, if_neg hother]
    · rw [Contract.map_name_merge]
      exact nodup_eraseDups _
    · intro name
      rw [Contract.method?_merge]
      exact Option.or_none
    · intro later more
      have hsingle := goesThrough_single more ((hkey key).trans (if_pos rfl))
      refine ⟨_, _, compose_of_goesThrough later hsingle, ?_⟩
      intro flat all last hflat
      refine ⟨_, _, compose_of_goesThrough later hflat, ?_⟩
      rw [Contract.methods_merge_again]
      -- the name of a contract has no part in its methods
      rw [Contract.methods_merge, Contract.methods_merge]
  · rintro ⟨base, hbase, hnot⟩
    cases hfind : bases.find? (fun base => !r.contains base) with
    | none =>
        have hcontains := List.find?_eq_none.mp hfind base hbase
        simp [hnot] at hcontains
    | some missing =>
        obtain ⟨hmissing, front, back, rfl, hfront⟩ := List.find?_eq_some_iff_append.mp hfind
        have hcompose : r.compose key (front ++ missing :: back) own
            = .error (.unregistered missing) := by
          rw [compose, inherited_of_missing (by simpa using hfront) (by simpa using hmissing)]
          rfl
        refine ⟨missing, rfl, hcompose, ?_⟩
        rw [afterCompose, hcompose]

/-- A contract that is composed over itself, twice, and then built on. -/
theorem composition_of_bases_overItself :
    let hello : Method := { name := "hello", args := [], returns := none }
    let bye : Method := { name := "bye", args := [], returns := none }
    let greet : Method := { hello with returns := some .string }
    let late : Method := { bye with readonly := true }
    let r : Registry := Table.insert {} "base" ⟨"Base", [hello, bye, greet]⟩
    r.GoesThrough ["base", "base"] ⟨"Own", [late]⟩ [hello, bye, greet, hello, bye, greet, late] ∧
      (∃ c r', r.compose "base" ["base", "base"] ⟨"Own", [late]⟩ = .ok (c, r') ∧
        c.methods.map Method.name = ["hello", "bye"] ∧ c.method? "hello" = some greet ∧
        c.method? "bye" = some late) ∧
      r.compose "child" ["base", "none", "other"] ⟨"Own", [late]⟩ = .error (.unregistered "none") ∧
      r.afterCompose "child" ["base", "none", "other"] ⟨"Own", [late]⟩ = r := by
  intro hello bye greet late r
  have hthrough : r.GoesThrough ["base", "base"] ⟨"Own", [late]⟩
      [hello, bye, greet, hello, bye, greet, late] :=
    ⟨_, .cons rfl (.cons rfl .nil), rfl⟩
  obtain ⟨hcomposed, -⟩ := composition_of_bases r "base" ["base", "base"] ⟨"Own", [late]⟩
  obtain ⟨-, hmissing⟩ := composition_of_bases r "child" ["base", "none", "other"] ⟨"Own", [late]⟩
  obtain ⟨c, r', hc, -, -, -, hnames, hmethods, -⟩ := hcomposed _ hthrough
  obtain ⟨missing, hfirst, hrefused, hsame⟩ :=
    hmissing ⟨"none", List.mem_cons_of_mem _ List.mem_cons_self, by decide⟩
  obtain rfl : "none" = missing := Option.some.inj hfirst
  exact ⟨hthrough, ⟨c, r', hc, hnames, hmethods "hello", hmethods "bye"⟩, hrefused, hsame⟩

end Registry

end AvmSandbox
