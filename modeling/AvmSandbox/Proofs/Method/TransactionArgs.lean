import AvmSandbox.Proofs.Chain.Groups
import AvmSandbox.Proofs.Sandbox.Creation
import AvmSandbox.Method.Call

/-! # Transaction arguments — from a deferred call to the method it calls

    A deferred call brings its transaction arguments along.  Flattening puts them
    and the call somewhere into a group, where they get their positions; the
    method finds them again by counting back from the active call.  That comes
    out right because items stay together and keep their order.

    * `Transaction.placedAt` and `Group.number_append`: positions;
    * `Method.transactionArgs_eq_ok_iff`: which transactions a method takes for
      its arguments;
    * `GroupItem.transactions_of_built`: the place of a deferred call among items;
    * `Method.transactionArgs_of_deferred`: the arguments that were given are the
      arguments that are found. -/

namespace AvmSandbox

open AvmSandbox.Action

/-! ## Positions -/

/-- A transaction at another position of its group. -/
def Transaction.placedAt (t : Transaction) (position : Nat) : Transaction :=
  { t with header := { t.header with groupIndex := position } }

namespace Group

/-- Each transaction gets its position and stays as it is otherwise. -/
theorem number_eq_map (start : Nat) (ts : List Transaction) :
    number start ts = (ts.zipIdx start).map fun (t, position) => t.placedAt position := by
  induction ts generalizing start with
  | nil => rfl
  | cons t ts ih =>
      rw [number, List.zipIdx_cons, List.map_cons, ih]
      rfl

theorem number_append (start : Nat) (ts us : List Transaction) :
    number start (ts ++ us) = number start ts ++ number (start + ts.length) us := by
  simp only [number_eq_map]
  rw [List.zipIdx_append, List.map_append]

theorem getElem?_number (start : Nat) (ts : List Transaction) (i : Nat) :
    (number start ts)[i]? = ts[i]?.map fun t => t.placedAt (start + i) := by
  rw [number_eq_map, List.getElem?_map, List.getElem?_zipIdx, Option.map_map]
  rfl

end Group

/-! ## The arguments that a method takes -/

namespace Method

variable {m : Method} {g : Group} {kind : Option TransactionKind} {t : Transaction}

/-- Whether a transaction is of a declared kind, if one is declared. -/
def Accepts (kind : Option TransactionKind) (t : Transaction) : Prop :=
  ∀ declared, kind = some declared → t.kind = declared

/-- Whether transactions are what a method declares, in number and in kind. -/
def Declares (m : Method) (ts : List Transaction) : Prop :=
  List.Forall₂ Accepts m.transactionKinds ts

theorem checkKind_eq_ok_iff {u : Unit} : checkKind kind t = .ok u ↔ Accepts kind t := by
  cases kind with
  | none => simp [checkKind, Accepts]
  | some declared =>
      rw [checkKind]
      by_cases h : t.kind = declared
      · rw [if_pos h]
        simp [Accepts, h]
      · rw [if_neg h]
        simp [Accepts, h]

/-- Transactions keep their kind when they get their places. -/
theorem accepts_number {kinds : List (Option TransactionKind)} {ts : List Transaction}
    (h : List.Forall₂ Accepts kinds ts) (start : Nat) :
    List.Forall₂ Accepts kinds (Group.number start ts) := by
  induction h generalizing start with
  | nil => exact .nil
  | cons ht _ ih => exact .cons ht (ih (start + 1))

/-- Transactions are taken from a position on, by induction on the declared kinds. -/
theorem takeArgs_eq_ok_iff {kinds : List (Option TransactionKind)} {start : Nat}
    {ts : List Transaction} :
    takeArgs g start kinds = .ok ts ↔
      List.Forall₂ Accepts kinds ts ∧ ts <+: g.transactions.drop start := by
  induction kinds generalizing start ts with
  | nil =>
      rw [takeArgs, List.forall₂_nil_left_iff]
      constructor
      · intro h
        cases h
        exact ⟨rfl, List.nil_prefix⟩
      · rintro ⟨rfl, -⟩
        rfl
  | cons kind kinds ih =>
      rw [takeArgs]
      simp only [bind_eq_ok_iff, pure_eq_ok_iff, checkKind_eq_ok_iff, ih,
        Group.transaction_eq_ok_iff]
      constructor
      · rintro ⟨t, ht, -, hkind, rest, ⟨hkinds, hrest⟩, rfl⟩
        obtain ⟨hlt, rfl⟩ := List.getElem?_eq_some_iff.mp ht
        rw [List.drop_eq_getElem_cons hlt]
        exact ⟨.cons hkind hkinds, List.cons_prefix_cons.mpr ⟨rfl, hrest⟩⟩
      · rintro ⟨hkinds, hprefix⟩
        cases hkinds with
        | @cons _ t _ rest hkind hkinds =>
            obtain ⟨after, hafter⟩ := hprefix
            have ht : g.transactions[start]? = some t := by
              rw [← List.head?_drop, ← hafter]
              rfl
            refine ⟨t, ht, (), hkind, rest, ⟨hkinds, after, ?_⟩, rfl⟩
            rw [← List.tail_drop, ← hafter]
            rfl

/-- **A METHOD TAKES THE TRANSACTIONS RIGHT BEFORE ITS CALL**, as many as it declares, when they
    are of the declared kinds. -/
theorem transactionArgs_eq_ok_iff {ts : List Transaction} :
    m.transactionArgs g = .ok ts ↔
      m.Declares ts ∧ ts.length ≤ g.active ∧ ts <+: g.transactions.drop (g.active - ts.length) := by
  rw [transactionArgs]
  by_cases h : m.transactionKinds.length > g.active
  · rw [if_pos h]
    refine iff_of_false (fun hrun => by cases hrun) ?_
    rintro ⟨hkinds, hle, -⟩
    rw [← hkinds.length_eq] at hle
    exact absurd h (Nat.not_lt.mpr hle)
  · rw [if_neg h]
    show takeArgs g (g.active - m.transactionKinds.length) m.transactionKinds = .ok ts ↔ _
    rw [takeArgs_eq_ok_iff]
    constructor
    · rintro ⟨hkinds, hprefix⟩
      rw [hkinds.length_eq] at h hprefix
      exact ⟨hkinds, Nat.not_lt.mp h, hprefix⟩
    · rintro ⟨hkinds, -, hprefix⟩
      rw [← hkinds.length_eq] at hprefix
      exact ⟨hkinds, hprefix⟩

/-- The case where the transactions in front are known. -/
theorem transactionArgs_of_append {before ts after : List Transaction} (hkinds : m.Declares ts)
    (h : g.transactions = before ++ ts ++ after) (hactive : g.active = before.length + ts.length) :
    m.transactionArgs g = .ok ts := by
  refine transactionArgs_eq_ok_iff.mpr ⟨hkinds, ?_, after, ?_⟩
  · rw [hactive]
    exact Nat.le_add_left ..
  · rw [hactive, Nat.add_sub_cancel, h, List.append_assoc, List.drop_left]

end Method

/-! ## Deferred calls among other items -/

section deferred

variable {before after : List GroupItem} {args : List Transaction} {call : Transaction}
  {d : DeferredCall} {m : Method}

/-- Flattened items, seen from one deferred call. -/
theorem GroupItem.transactions_of_built
    (h : DeferredCall.ofTransactions (args ++ [call]) = .ok d) :
    (before ++ deferred d :: after).flatMap transactions
      = before.flatMap transactions ++ args ++ call :: after.flatMap transactions := by
  rw [List.flatMap_append, List.flatMap_cons, transactions,
    DeferredCall.transactions_of_ofTransactions h]
  simp only [List.append_assoc, List.cons_append, List.nil_append]

/-- An argument stands behind the items before its call, and the call behind its arguments. -/
theorem GroupItem.getElem?_of_built (h : DeferredCall.ofTransactions (args ++ [call]) = .ok d)
    {i : Nat} {t : Transaction} (ht : (args ++ [call])[i]? = some t) :
    ((before ++ deferred d :: after).flatMap transactions)[
      (before.flatMap transactions).length + i]? = some t := by
  obtain ⟨hi, -⟩ := List.getElem?_eq_some_iff.mp ht
  rw [transactions_of_built h, List.append_assoc, List.append_cons args,
    List.getElem?_append_right (Nat.le_add_right ..), Nat.add_sub_cancel_left,
    List.getElem?_append_left hi, ht]

/-- The transactions of a group, seen from one deferred call. -/
theorem Group.number_transactions (before after : List GroupItem)
    (h : DeferredCall.ofTransactions (args ++ [call]) = .ok d) :
    number 0 ((before ++ .deferred d :: after).flatMap GroupItem.transactions)
      = number 0 (before.flatMap GroupItem.transactions)
        ++ number (before.flatMap GroupItem.transactions).length args
        ++ number ((before.flatMap GroupItem.transactions).length + args.length)
            (call :: after.flatMap GroupItem.transactions) := by
  rw [GroupItem.transactions_of_built h, number_append, number_append, List.length_append,
    Nat.zero_add, Nat.zero_add]

/-- **TRANSACTION ARGUMENTS REACH THE CALL THEY WERE GIVEN FOR**, whatever stands before and after.
    Items that are not too many form a group with a deferred call active.  Where it is, be it from
    the start or later, the method that it calls finds the arguments of that very call, in order
    and at their positions in the group. -/
theorem Method.transactionArgs_of_deferred (before after : List GroupItem)
    (hbuilt : DeferredCall.ofTransactions (args ++ [call]) = .ok d) (hkinds : m.Declares args)
    (hsize : ((before ++ .deferred d :: after).flatMap GroupItem.transactions).length
      ≤ Limits.group) :
    let items := before ++ .deferred d :: after
    let start := (before.flatMap GroupItem.transactions).length
    let position := start + args.length
    (∃ g, Group.new items (some position) = .ok g) ∧
    ∀ active g, Group.new items active = .ok g →
      ∃ g', g.setActive position = .ok g' ∧ (active = some position → g' = g) ∧
        g'.activeTransaction = .ok (call.placedAt position) ∧
        m.transactionArgs g'
          = .ok ((args.zipIdx start).map fun (t, position) => t.placedAt position) ∧
        ∀ i t, args[i]? = some t → g'.transaction (start + i) = .ok (t.placedAt (start + i)) := by
  intro items start position
  -- the arguments and the call stand in one piece behind the items before
  have hat : ∀ i t, (args ++ [call])[i]? = some t →
      (items.flatMap GroupItem.transactions)[start + i]? = some t := by
    intro i t ht
    exact GroupItem.getElem?_of_built hbuilt ht
  have hcall := hat args.length call List.getElem?_concat_length
  obtain ⟨hlt, -⟩ := List.getElem?_eq_some_iff.mp hcall
  refine ⟨⟨_, (Group.new_eq_ok_iff rfl).mpr ⟨hsize, position, if_pos hlt, rfl⟩⟩, ?_⟩
  intro active g hg
  obtain ⟨-, chosen, hchosen, rfl⟩ := (Group.new_eq_ok_iff rfl).mp hg
  -- numbering moves nothing
  have hplaced : ∀ i t, (args ++ [call])[i]? = some t →
      (Group.number 0 (items.flatMap GroupItem.transactions))[start + i]?
        = some (t.placedAt (start + i)) := by
    intro i t ht
    rw [Group.getElem?_number, hat i t ht, Option.map_some, Nat.zero_add]
  refine ⟨_, Group.setActive_eq_ok_iff.mpr ⟨?_, rfl⟩, ?_, ?_, ?_, ?_⟩
  · rw [Group.size, Group.length_number]
    exact hlt
  · rintro rfl
    rw [(Group.chooseActive_some_eq_ok_iff.mp hchosen).2]
  · exact Group.transaction_eq_ok_iff.mpr (hplaced args.length call List.getElem?_concat_length)
  · rw [← Group.number_eq_map]
    refine transactionArgs_of_append (accepts_number hkinds start)
      (Group.number_transactions before after hbuilt) ?_
    rw [Group.length_number, Group.length_number]
  · intro i t ht
    have hi := (List.getElem?_eq_some_iff.mp ht).1
    exact Group.transaction_eq_ok_iff.mpr
      (hplaced i t ((List.getElem?_append_left hi).trans ht))

/-- A call with one payment, a transaction by itself, and a call with a payment and any
    transaction. -/
theorem Method.transactionArgs_of_deferred_second :
    let pay : Transaction := ⟨{}, .payment { amount := 5 }⟩
    let freeze : Transaction := ⟨{ fee := 9 }, .assetFreeze {}⟩
    let call : Transaction := ⟨{}, .call { app := 1001 }⟩
    let first : DeferredCall := ⟨[pay], call, rfl⟩
    let second : DeferredCall := ⟨[pay, freeze], call, rfl⟩
    let m : Method := ⟨"settle", [.transaction (some .payment), .value (.uint 64),
      .transaction none], none, [.noOp], .disallow, false⟩
    ∃ g, Group.new [.deferred first, .single pay, .deferred second, .single freeze] (some 5)
        = .ok g ∧
      g.activeTransaction = .ok (call.placedAt 5) ∧
      m.transactionArgs g = .ok [pay.placedAt 3, freeze.placedAt 4] := by
  intro pay freeze call first second m
  have hkinds : m.Declares [pay, freeze] :=
    .cons (fun _ h => by cases h; rfl) (.cons (fun _ h => by cases h) .nil)
  have hbuilt : DeferredCall.ofTransactions ([pay, freeze] ++ [call]) = .ok second := rfl
  obtain ⟨⟨g, hg⟩, hfinds⟩ := transactionArgs_of_deferred [.deferred first, .single pay]
    [.single freeze] hbuilt hkinds (by decide)
  obtain ⟨g', -, hsame, hactive, hargs, -⟩ := hfinds _ g hg
  obtain rfl := hsame rfl
  exact ⟨g', hg, hactive, hargs⟩

end deferred

end AvmSandbox
