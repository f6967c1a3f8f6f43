/-
What loops and tasks do to the store: suspension on pendings, the table of tasks, forcing.

A task that meets an open pending is registered with it, once however often it is polled.  A slot is
followed on from the pending that was met when the task is polled again.

* **`Store.ask`** — the answer to what code waits for, or the pending that it meets open;
* **`Store.resolveOperands`** — the result of a deferred merge that is forced;
* **`Infer.mergeDeferred`** — the deferred merge itself, once its operands are known.
-/
import ValueInference.Broaden
import ValueInference.Schedule.Program

namespace ValueInference

/-- What is left to wait for when a pending is met open. -/
def Wait.left : Wait → PendingId → Wait
  | .pending _, p => .pending p
  | .slot _, p => .slot (.pending p)

namespace Store

/-- Registers a task to be woken when a pending is closed, unless it is registered already. -/
def register (s : Store) (w : Waiter) (p : PendingId) : Store :=
  s.modifyPending p fun c =>
    if w ∈ c.waiters then c else { c with waiters := c.waiters ++ [w] }

/-- Whether a task can be suspended on a pending. -/
def canWait (s : Store) (p : PendingId) : Bool :=
  p < s.pendings.size && s.isOpen p

/-- The error of a wait for a pending that does not exist. -/
def dangling : Outcome := .error (.invalidConstruction .dangling)

/-- What a slot stands for, or the open pending that it waits for: the outcome of following it
through closed pendings.  A chain that leads nowhere is dangling. -/
def poll (s : Store) (slot : Slot) : PendingId ⊕ Outcome :=
  match s.resolve slot with
  | .pending p =>
    match s.error? p with
    | some e => .inr (.error e)
    | none => if s.canWait p then .inl p else .inr dangling
  | slot => .inr (.ok slot)

/-- The open pending that a wait meets, or else its answer. -/
def ask (s : Store) : Wait → PendingId ⊕ Outcome
  | .pending p =>
    match s.outcome? p with
    | some r => .inr r
    | none => if s.canWait p then .inl p else .inr dangling
  | .slot slot => s.poll slot

/-- A loop's state; a loop that does not exist has nothing to do. -/
def loop (s : Store) (l : LoopId) : LoopState :=
  s.loops[l]?.getD { config := {} }

/-- The pendings of a loop with a property, in order. -/
def loopPendings (s : Store) (l : LoopId) (keep : PendingId → Bool) : List PendingId :=
  (s.loop l).pendings.filter keep

/-- Takes the resolver of a pending, which is then being resolved. -/
def beginResolving (s : Store) (p : PendingId) : Option Resolver × Store :=
  match s.pendings[p]?.bind Pending.resolver with
  | none => (none, s)
  | some r =>
    (some r, s.modifyPending p fun c => { c with resolver := none, status := .resolving })

/-- Fails a pending, whatever its state. -/
def fail (s : Store) (p : PendingId) (e : InferError) : Store :=
  s.close p (.failed e)

/-- What a deferred merge is taken for when it is forced: what is known of its operands. -/
def resolveOperands (s : Store) (left right : Slot) : Outcome :=
  match s.resolve left, s.resolve right with
  | .pending p, .pending q => .error (.deadlock [s.pendingNumber p, s.pendingNumber q])
  | .pending _, known => .ok (s.broadenSlot known)
  | known, _ => .ok (s.broadenSlot known)

/-- The error of a loop that cannot go on, with the pendings that its tasks wait for. -/
def deadlock (s : Store) (l : LoopId) : InferError × Store :=
  let blocked := (s.loopPendings l fun p => s.isOpen p && s.hasWaiters p).map s.pendingNumber
  (.deadlock blocked, s.record (.deadlock blocked))

/-- Puts a task into the table of its loop. -/
def putTask (s : Store) (l : LoopId) (t : TaskId) (body : TaskBody) : Store :=
  s.modifyLoop l fun loop => { loop with tasks := loop.tasks ++ [(t, body)] }

/-- Takes a task out of the table of its loop. -/
def dropTask (s : Store) (l : LoopId) (t : TaskId) : Store :=
  s.modifyLoop l fun loop => { loop with tasks := loop.tasks.filter fun e => e.1 ≠ t }

end Store

/-- Merges the operands of a deferred merge, once they are known.  If the loop has forced the
result before, that has to cover the merge. -/
def Infer.mergeDeferred (l : LoopId) (d : Deferral) (left right : Slot) : Infer Unit := do
  let scope := (← store).mergeScope (some l)
  let merged ← mergeSlots scope d.forced left right
  match (← store).result? d.out with
  | some existing => discard (mergeSlots scope true existing merged)
  | none => setResult d.out merged

end ValueInference
