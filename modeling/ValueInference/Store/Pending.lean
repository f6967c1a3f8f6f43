/-
Pendings and loops in the store.

A pending is resolved at most once by `setResult`; the tasks suspended on it are then put into the
ready queues of their loops, in the order in which they came, and no queue holds a task twice.

* **`Store.setResult`** — resolves an open pending;
* **`Store.openPending`**, **`Store.spawn`**, **`Store.openLoop`** — register new ones.
-/
import ValueInference.Store.Build

namespace ValueInference

/-- Queues a task for polling, unless it is queued already. -/
def LoopState.schedule (l : LoopState) (t : TaskId) : LoopState :=
  if t ∈ l.ready then l else { l with ready := l.ready ++ [t] }

namespace Store

/-- Changes the state of a loop. -/
def modifyLoop (s : Store) (l : LoopId) (f : LoopState → LoopState) : Store :=
  { s with loops := s.loops.modify l f }

/-- Changes a pending. -/
def modifyPending (s : Store) (p : PendingId) (f : Pending → Pending) : Store :=
  { s with pendings := s.pendings.modify p f }

/-- Queues a waiting task in its loop. -/
def wake (s : Store) (w : Waiter) : Store :=
  s.modifyLoop w.loop fun l => l.schedule w.task

/-- The tasks suspended on a pending. -/
def waiters (s : Store) (p : PendingId) : List Waiter :=
  (s.pendings[p]?.map Pending.waiters).getD []

/-- Closes a pending: it drops its resolver, and its waiters are woken. -/
def close (s : Store) (p : PendingId) (status : PendingStatus) : Store :=
  (s.waiters p).foldl wake
    (s.modifyPending p fun c => { c with status, resolver := none, waiters := [] })

/-- Resolves an open pending.  It cannot be resolved to itself. -/
def setResult (s : Store) (p : PendingId) (slot : Slot) : Except InferError Unit × Store :=
  if !s.isOpen p then (.error (.alreadyResolved (s.pendingNumber p)), s)
  else if slot = .pending p then
    (.error (.invalidConstruction (.selfResolution (s.pendingNumber p))), s)
  else if !(s.knowsSlot slot && p < s.pendings.size) then
    (.error (.invalidConstruction .dangling), s)
  else (.ok (), s.close p (.resolved slot))

/-- Adds a loop with the given limits. -/
def openLoop (s : Store) (config : Config) : LoopId × Store :=
  (s.loops.size, { s with loops := s.loops.push { config } })

/-- Whether every slot that a resolver mentions exists. -/
def knowsResolver (s : Store) : Option Resolver → Bool
  | some (.operands left right) => s.knowsSlot left && s.knowsSlot right
  | _ => true

/-- Registers a pending with a loop. -/
def openPending (s : Store) (l : LoopId) (resolver : Option Resolver) (priority : Priority) :
    Except Fault PendingId × Store :=
  match s.loops[l]? with
  | none => (.error .dangling, s)
  | some loop =>
    if !s.knowsResolver resolver then (.error .dangling, s)
    else
      let p := s.pendings.size
      let cell : Pending :=
        { loop := l, number := loop.pendings.length, resolver := resolver, priority := priority }
      (.ok p, { s with
        pendings := s.pendings.push cell
        loops := s.loops.modify l fun loop => { loop with pendings := loop.pendings ++ [p] } })

/-- Whether every slot and pending that a task mentions exists. -/
def knowsBody (s : Store) : TaskBody → Bool
  | .merge d => s.knowsSlot d.left && s.knowsSlot d.right && d.out < s.pendings.size
  | _ => true

/-- Adds a task to a loop and queues it. -/
def spawn (s : Store) (l : LoopId) (body : TaskBody) : Except Fault TaskId × Store :=
  match s.loops[l]? with
  | none => (.error .dangling, s)
  | some loop =>
    if !s.knowsBody body then (.error .dangling, s)
    else
      let t := loop.spawned
      (.ok t, s.modifyLoop l fun loop =>
        LoopState.schedule
          { loop with spawned := t + 1, tasks := loop.tasks ++ [(t, body)] } t)

/-- Collects a diagnostic. -/
def record (s : Store) (d : Diagnostic) : Store :=
  { s with diagnostics := s.diagnostics.add d }

end Store

end ValueInference
