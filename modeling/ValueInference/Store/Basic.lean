/-
The store: the heap of abstract values together with the pendings and loops that they depend on.

A node gets its form once and keeps it.  Nodes built over interned nodes only are interned, so
that equal ones are the same instance; `Node.digest` numbers the content of every node known to be
free of cycles.

* **`Store.kind`** — the form of a node; one without a form yet reads as an error value;
* **`Store.resolve`** — what a slot stands for, through resolved pendings.
-/
import ValueInference.Diagnostic
import ValueInference.InferError

namespace ValueInference

/-- A node of the heap of abstract values. -/
structure Node where
  /-- The form; a placeholder has none until it is completed. -/
  kind : Option Kind
  /-- The number of the node's content, for a node that is known to be free of cycles. -/
  digest : Option Nat
  interned : Bool

/-- A merge put off until its operands are known; its result goes to the pending `out`. -/
structure Deferral where
  left : Slot
  right : Slot
  out : PendingId
  forced : Bool

/-- How a loop that forces a pending gets its result. -/
inductive Resolver where
  /-- From the known operand of a deferred merge. -/
  | operands (left right : Slot)
  /-- From a client's code, by its number. -/
  | code (index : Nat)

/-- How a loop ranks a pending among those it may force. -/
inductive Priority where
  | unranked
  /-- The higher rank of the pendings that a deferred merge waits for. -/
  | highest (left right : Option PendingId)
  /-- By a client's rule, by its number. -/
  | code (index : Nat)
deriving DecidableEq

/-- How far a pending has come. -/
inductive PendingStatus where
  | unresolved
  /-- Its resolver is running. -/
  | resolving
  | resolved (slot : Slot)
  | failed (error : InferError)

/-- A task that waits, and the loop it belongs to. -/
structure Waiter where
  loop : LoopId
  task : TaskId
deriving DecidableEq

/-- A value that is not known yet. -/
structure Pending where
  loop : LoopId
  /-- The pending's number within its loop. -/
  number : Nat
  status : PendingStatus := .unresolved
  resolver : Option Resolver
  priority : Priority
  /-- The tasks suspended on this pending, in the order in which they came. -/
  waiters : List Waiter := []

/-- What a task does when it is polled. -/
inductive TaskBody where
  | merge (d : Deferral)
  /-- A client's code, by its number. -/
  | code (index : Nat)
  /-- A client's code whose outcome the loop keeps for a caller. -/
  | watched (index : Nat)

/-- A loop that polls tasks and forces pendings. -/
structure LoopState where
  config : Config
  /-- The tasks to poll, without repetition. -/
  ready : List TaskId := []
  /-- The tasks that have not completed; a task is taken out while it is polled. -/
  tasks : List (TaskId × TaskBody) := []
  /-- The pendings registered with the loop, by their numbers within it. -/
  pendings : List PendingId := []
  /-- How many tasks were ever spawned. -/
  spawned : Nat := 0
  /-- How many pendings were forced. -/
  forced : Nat := 0
  /-- Errors of tasks that no caller has been told yet. -/
  errors : List InferError := []
  /-- Outcomes of watched tasks that no caller has taken yet. -/
  outcomes : List (TaskId × Except InferError Slot) := []

/-- The whole state of an inference. -/
structure Store where
  nodes : Array Node := #[]
  /-- The contents that digests number. -/
  contents : Array Kind := #[]
  /-- How many possibility sets were made. -/
  tokens : Nat := 0
  pendings : Array Pending := #[]
  loops : Array LoopState := #[]
  diagnostics : Diagnostics := {}

namespace Store

/-- The form of a node.  A node without one reads as an incomplete error value. -/
def kind (s : Store) (n : NodeId) : Kind :=
  (s.nodes[n]?.bind Node.kind).getD (.error .incomplete)

def isComplete (s : Store) (n : NodeId) : Bool :=
  (s.nodes[n]?.bind Node.kind).isSome

def digest (s : Store) (n : NodeId) : Option Nat :=
  s.nodes[n]?.bind Node.digest

def isInterned (s : Store) (n : NodeId) : Bool :=
  (s.nodes[n]?.map Node.interned).getD false

def isDead (s : Store) (n : NodeId) : Bool :=
  s.kind n = .error .dead

/-- The number of a pending within its loop. -/
def pendingNumber (s : Store) (p : PendingId) : Nat :=
  (s.pendings[p]?.map Pending.number).getD 0

def pendingStatus (s : Store) (p : PendingId) : PendingStatus :=
  (s.pendings[p]?.map Pending.status).getD .unresolved

/-- The slot that a pending was resolved to. -/
def result? (s : Store) (p : PendingId) : Option Slot :=
  match s.pendingStatus p with
  | .resolved slot => some slot
  | _ => none

/-- The error that a pending failed with. -/
def error? (s : Store) (p : PendingId) : Option InferError :=
  match s.pendingStatus p with
  | .failed e => some e
  | _ => none

/-- Neither resolved nor failed. -/
def isOpen (s : Store) (p : PendingId) : Bool :=
  match s.pendingStatus p with
  | .unresolved | .resolving => true
  | _ => false

def isResolving (s : Store) (p : PendingId) : Bool :=
  match s.pendingStatus p with
  | .resolving => true
  | _ => false

def hasResolver (s : Store) (p : PendingId) : Bool :=
  (s.pendings[p]?.bind Pending.resolver).isSome

/-- Whether some task is suspended on the pending. -/
def hasWaiters (s : Store) (p : PendingId) : Bool :=
  (s.pendings[p]?.map fun c => !c.waiters.isEmpty).getD false

/-- The outcome of a pending that is resolved or has failed. -/
def outcome? (s : Store) (p : PendingId) : Option (Except InferError Slot) :=
  match s.pendingStatus p with
  | .resolved slot => some (.ok slot)
  | .failed e => some (.error e)
  | _ => none

/-- Follows resolved pendings from a slot, through at most `fuel` of them. -/
def follow (s : Store) : Nat → Slot → Slot
  | fuel + 1, .pending p =>
    match s.result? p with
    | some slot => follow s fuel slot
    | none => .pending p
  | _, slot => slot

/-- The slot that a slot stands for: a chain of resolved pendings has no more links than there
are pendings. -/
def resolve (s : Store) (slot : Slot) : Slot :=
  s.follow s.pendings.size slot

/-- The unresolved pending that a slot waits for. -/
def waitsOn (s : Store) (slot : Slot) : Option PendingId :=
  match s.resolve slot with
  | .pending p => some p
  | _ => none

/-- Whether every node and pending that a slot mentions exists. -/
def knowsSlot (s : Store) (slot : Slot) : Bool :=
  slot.children.all (· < s.nodes.size) && slot.pendings.all (· < s.pendings.size)

/-- Whether every node and pending that a form mentions exists. -/
def knows (s : Store) (k : Kind) : Bool :=
  k.children.all (· < s.nodes.size) &&
    ((k.slot?.map Slot.pendings).getD []).all (· < s.pendings.size)

end Store

end ValueInference
