import AvmSandbox.Transaction.Inner

/-! # Groups — transactions that belong together

    A group is an ordered sequence of at most sixteen transactions, one of
    which is active.  Every transaction has its own scratch space.  While a
    group is open, its active call may compose a group of inner transactions;
    the groups submitted so far are kept.

    * `Group.new` flattens items and numbers the transactions;
    * the scratch, log and composition operations, each of which either returns
      a new group or fails. -/

namespace AvmSandbox

/-- The scratch slots of one transaction, all zero at first. -/
abbrev Scratch := Vector StackValue 256

namespace Scratch

/-- Scratch space as it is at first. -/
def fresh : Scratch := Vector.replicate 256 (.uint64 0)

def load (s : Scratch) (slot : Nat) : Result StackValue :=
  match s[slot]? with
  | some v => .ok v
  | none => .error (.scratchSlot slot)

/-- Writes a slot. -/
def store (s : Scratch) (slot : Nat) (v : StackValue) : Result Scratch :=
  if h : slot < 256 then .ok (s.set slot v h) else .error (.scratchSlot slot)

end Scratch

/-- An application call preceded by its transaction arguments. -/
structure DeferredCall where
  args : List Transaction
  call : Transaction
  isCall : call.isCall = true

namespace DeferredCall

/-- The transactions in order. -/
def transactions (d : DeferredCall) : List Transaction := d.args ++ [d.call]

/-- Transactions that end with an application call. -/
def ofTransactions (ts : List Transaction) : Result DeferredCall :=
  match ts.getLast? with
  | none => .error .notEndingInCall
  | some last =>
      if h : last.isCall = true then .ok ⟨ts.dropLast, last, h⟩ else .error .notEndingInCall

end DeferredCall

/-- What a group is formed from. -/
inductive GroupItem where
  | single (t : Transaction)
  | deferred (d : DeferredCall)

namespace GroupItem

def transactions : GroupItem → List Transaction
  | single t => [t]
  | deferred d => d.transactions

end GroupItem

/-- An open or finished group. -/
structure Group where
  transactions : List Transaction
  /-- The position of the active transaction. -/
  active : Nat
  /-- The scratch space of each transaction. -/
  scratch : List Scratch
  /-- The inner groups submitted, oldest first. -/
  innerGroups : List (List Transaction) := []
  /-- The inner transactions under composition, if a composition is open. -/
  composing : Option (List InnerParams) := none

namespace Group

/-- Gives transactions their positions, counted from `start`. -/
def number (start : Nat) : List Transaction → List Transaction
  | [] => []
  | t :: ts =>
      { t with header := { t.header with groupIndex := start } } :: number (start + 1) ts

/-- The active position of a group of a size: the given one, else the last. -/
def chooseActive (size : Nat) : Option Nat → Result Nat
  | some i => if i < size then .ok i else .error (.activeIndexOutOfRange i size)
  | none => .ok (size - 1)

/-- A group formed from items. -/
def new (items : List GroupItem) (active : Option Nat) : Result Group := do
  let ts := items.flatMap GroupItem.transactions
  if ts.length > Limits.group then throw (.groupTooLarge ts.length)
  let active ← chooseActive ts.length active
  return { transactions := number 0 ts, active, scratch := List.replicate ts.length .fresh }

variable (g : Group)

/-- The number of transactions. -/
def size : Nat := g.transactions.length

/-- Whether there are no transactions. -/
def isEmpty : Bool := g.transactions.isEmpty

/-- Makes another transaction active. -/
def setActive (index : Nat) : Result Group :=
  if index < g.size then .ok { g with active := index }
  else .error (.activeIndexOutOfRange index g.size)

/-- The transaction at a position. -/
def transaction (index : Nat) : Result Transaction :=
  match g.transactions[index]? with
  | some t => .ok t
  | none => .error (.noTransactionAt index)

def activeTransaction : Result Transaction := g.transaction g.active

def activeForChange : Result Transaction :=
  match g.transactions[g.active]? with
  | some t => .ok t
  | none => .error .emptyGroup

/-- Puts a transaction in the active place. -/
def setActiveTransaction (t : Transaction) : Group :=
  { g with transactions := g.transactions.set g.active t }

/-- The fields of the active application call. -/
def activeCall : Result AppCall := do (← g.activeTransaction).call

/-- The application that the active call calls. -/
def activeApp : Result UInt64 := return (← g.activeCall).app

/-- Adds an entry to the log of the active call. -/
def appendLog (entry : Bytes) : Result Group := do
  let t ← g.activeForChange
  match t.call? with
  | none => throw .logOutsideCall
  | some c =>
      let log ← c.log.append entry
      return g.setActiveTransaction { t with body := .call { c with log } }

/-! ## Scratch space -/

/-- The value of a slot of the transaction at a position. -/
def loadScratch (index slot : Nat) : Result StackValue :=
  match g.scratch[index]? with
  | some s => s.load slot
  | none => .error (.noTransactionAt index)

/-- Writes a slot of the active transaction. -/
def storeScratch (slot : Nat) (v : StackValue) : Result Group :=
  match g.scratch[g.active]? with
  | some s => return { g with scratch := g.scratch.set g.active (← s.store slot v) }
  | none => .error .emptyGroup

/-- The slots that are not zero: the position of the transaction, the slot, and its value. -/
def usedScratch : List (Nat × Nat × StackValue) :=
  g.scratch.zipIdx.flatMap fun (space, i) =>
    space.toList.zipIdx.filterMap fun (v, slot) =>
      if v = .uint64 0 then none else some (i, slot, v)

/-! ## Composition of inner transactions -/

/-- Opens a composition with one inner transaction.  Only application calls may, and not while
    they clear state. -/
def beginInner : Result Group := do
  if g.composing.isSome then throw .alreadyComposing
  match (← g.activeTransaction).call? with
  | none => throw .composingOutsideCall
  | some c =>
      if c.onCompletion = .clearState then throw .composingInClearState
      return { g with composing := some [{}] }

/-- Goes on to the next inner transaction. -/
def nextInner : Result Group :=
  match g.composing with
  | some params => .ok { g with composing := some (params ++ [{}]) }
  | none => .error .nextWithoutBegin

/-- Changes the newest inner transaction under composition. -/
def modifyInner (f : InnerParams → Result InnerParams) : Result Group :=
  match g.composing with
  | none => .error .fieldWithoutBegin
  | some params =>
      match params.getLast? with
      | none => .error .fieldWithoutBegin
      | some p => return { g with composing := some (params.dropLast ++ [← f p]) }

/-- Assigns a field of the newest inner transaction. -/
def assignInner (field : InnerField) : Result Group := g.modifyInner fun p => p.assign field

/-- Replaces the newest inner transaction. -/
def replaceInner (p : InnerParams) : Result Group := g.modifyInner fun _ => .ok p

/-- Adds a submitted inner group, which the active call takes over. -/
def pushInnerGroup (submitted : List Transaction) : Result Group := do
  let t ← g.activeForChange
  let g :=
    match t.body with
    | .call c =>
        g.setActiveTransaction { t with body := .call { c with inner := c.inner ++ submitted } }
    | _ => g
  return { g with innerGroups := g.innerGroups ++ [submitted] }

/-- The inner group at a position. -/
def innerGroup (index : Nat) : Result (List Transaction) :=
  match g.innerGroups[index]? with
  | some ts => .ok ts
  | none => .error (.noInnerGroupAt index)

/-- The newest inner group. -/
def lastInnerGroup : Result (List Transaction) :=
  match g.innerGroups.getLast? with
  | some ts => .ok ts
  | none => .error .noInnerGroup

end Group

end AvmSandbox
