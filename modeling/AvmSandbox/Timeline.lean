import AvmSandbox.Transaction.Group

/-! # The timeline — the open group, the finished ones, and who observes

    There is never more than one open group; a finished one joins the history
    and stays as it is.  Every transaction gets an identifier made from its
    sender, its position and a counter that only grows.

    Observers watch inner application calls by selector and on-completion
    action, and may change a call before its issuer sees it. -/

namespace AvmSandbox

/-- Who watches inner application calls, and what it does to one. -/
structure Observer where
  selector : Bytes
  actions : List OnCompletion
  react : Transaction → Result Transaction

namespace Observer

/-- Whether an observer watches calls with a selector and an action. -/
def watches (o : Observer) (selector : Bytes) (action : OnCompletion) : Bool :=
  o.selector == selector && o.actions.contains action

/-- Lets every observer that watches a call react to it, in order.  What they watch for is
    taken from the call as it was submitted. -/
def notify (observers : List Observer) (t : Transaction) : Result Transaction :=
  match t.selector?, t.call? with
  | some selector, some c =>
      (observers.filter fun o => o.watches selector c.onCompletion).foldlM
        (fun t o => o.react t) t
  | _, _ => .ok t

end Observer

/-- The groups of a session and what they depend on. -/
structure Timeline where
  /-- How calls made by the sandbox lay out references. -/
  encoding : ReferenceEncoding
  /-- The open group. -/
  current : Option Group := none
  /-- The finished groups, oldest first. -/
  history : List Group := []
  observers : List Observer := []
  /-- How many identifiers were made. -/
  counter : Nat := 0

/-- The identifier of a transaction. -/
def transactionId (sender : Address) (position counter : Nat) : Bytes32 :=
  Digest.sha512_256
    (Bytes.ofText "TX" ++ sender.bytes ++ Bytes.ofNat 8 position ++ Bytes.ofNat 8 counter)

namespace Timeline

variable (tl : Timeline)

/-- The timeline without groups and observers. -/
def new (encoding : ReferenceEncoding) : Timeline := { encoding }

/-- Drops all groups and observers. -/
def reset : Timeline := new tl.encoding

/-- The open group. -/
def group : Result Group :=
  match tl.current with
  | some g => .ok g
  | none => .error .noOpenGroup

/-- Whether a group with transactions is open. -/
def hasGroup : Bool :=
  match tl.current with
  | some g => !g.isEmpty
  | none => false

/-- Gives transactions their identifiers, when `counter` were made before. -/
def identify (counter : Nat) : List Transaction → List Transaction
  | [] => []
  | t :: ts =>
      let id := transactionId t.header.sender t.header.groupIndex (counter + 1)
      { t with header := { t.header with id } } :: identify (counter + 1) ts

/-- Opens a group, unless one is open. -/
def openGroup (items : List GroupItem) (active : Option Nat) : Result Timeline := do
  if tl.current.isSome then throw .groupAlreadyOpen
  let g ← Group.new items active
  return { tl with
    current := some { g with transactions := identify tl.counter g.transactions }
    counter := tl.counter + g.size }

/-- Moves the open group to the history. -/
def finish : Result Timeline :=
  match tl.current with
  | some g => .ok { tl with current := none, history := tl.history ++ [g] }
  | none => .error .nothingToFinalize

/-- The group finished last. -/
def lastGroup : Result Group :=
  match tl.history.getLast? with
  | some g => .ok g
  | none => .error .noFinishedGroup

/-- Changes the open group. -/
def modifyGroup (f : Group → Result Group) : Result Timeline := do
  return { tl with current := some (← f (← tl.group)) }

end Timeline

end AvmSandbox
