/-
Client code for loops: tasks, resolvers and rules of rank.

A `Program` is code that may be suspended.  It runs updates, reads and writes the client's own
state, waits for pendings, goes on with two pieces of code at once, and calls loops; each of these
is one request, with the code that goes on from its answer.  Code that waits is asked again from the
same request when its task is polled next.

* **`Wait`** — what code can wait for;
* **`Fork`** — when two pieces of code that go on at once are over;
* **`Program`** — code as a tree of requests;
* **`Code`** — code with a result, as a monad, and a host for rebuilding values.
-/
import ValueInference.Rebuild

namespace ValueInference

/-- The outcome of a pending or a computation. -/
abbrev Outcome := Except InferError Slot

/-- What code can wait for. -/
inductive Wait where
  | pending (p : PendingId)
  /-- The slot that a slot stands for, through any chain of pendings. -/
  | slot (slot : Slot)

/-- When two pieces of code that go on at once are over. -/
inductive Fork where
  /-- When both have an outcome. -/
  | join
  /-- When either has one. -/
  | race

/-- What two pieces of code come to. -/
def Fork.Answer : Fork → Type
  | .join => Outcome × Outcome
  | .race => Outcome ⊕ Outcome

/-- Code of a client whose own state is `σ`. -/
inductive Program (σ : Type) : Type 1 where
  | done (outcome : Outcome)
  | update {α : Type} (x : Update α) (next : α → Program σ)
  /-- Reads and changes the client's state. -/
  | client {α : Type} (f : σ → α × σ) (next : α → Program σ)
  | await (w : Wait) (next : Outcome → Program σ)
  /-- Two pieces of code at once.  Whenever the task is polled, the left one goes on until it waits
  or has an outcome, and then the right one, if they are not over.  One that has no outcome when
  they are over is given up. -/
  | fork (rule : Fork) (left right : Program σ) (next : rule.Answer → Program σ)
  /-- Adds a task to a loop. -/
  | spawn (l : LoopId) (task : Program σ) (next : Except InferError TaskId → Program σ)
  /-- Registers a pending with a loop, with the code that resolves it when it is forced and the code
  that tells its rank among the pendings that may be forced. -/
  | pending (l : LoopId) (resolver rule : Program σ) (next : Except InferError PendingId → Program σ)
  /-- Asks for the rank of a pending, by running its rule. -/
  | rank (p : PendingId) (next : Option Int → Program σ)
  /-- Polls the tasks of a loop until none is ready, and tells whether any was polled. -/
  | runReady (l : LoopId) (next : Bool → Program σ)
  /-- Runs a loop until its tasks have completed. -/
  | run (l : LoopId) (next : Outcome → Program σ)
  /-- Runs a loop and forces what is left. -/
  | finish (l : LoopId) (next : Outcome → Program σ)
  /-- Resolves a pending now. -/
  | force (l : LoopId) (p : PendingId) (next : Outcome → Program σ)
  /-- Adds a task to a loop and runs the loop until the task has completed. -/
  | runUntil (l : LoopId) (task : Program σ) (next : Outcome → Program σ)

instance {σ : Type} : Inhabited (Program σ) := ⟨.done (.ok .anything)⟩

/-- The rank that the outcome of a rule tells: an integer, or else none. -/
def rankOf : Outcome → Option Int
  | .ok (.constant (.int n)) => some n.toInt
  | _ => none

/-- The rule of a pending whose rank never changes. -/
def Program.ranked {σ : Type} (rank : Option Int64) : Program σ :=
  .done (.ok (rank.elim .anything fun n => .constant (.int n)))

/-- Code with a result: what is to be done, given how to go on. -/
def Code (σ : Type) (α : Type) : Type 1 := (α → Program σ) → Program σ

namespace Code

variable {σ α : Type}

instance : Monad (Code σ) where
  pure a := fun next => next a
  bind x f := fun next => x fun a => f a next

def update (x : Update α) : Code σ α := fun next => .update x next

/-- The client's state. -/
def getOwn : Code σ σ := fun next => .client (fun c => (c, c)) next

def modifyOwn (f : σ → σ) : Code σ Unit := fun next => .client (fun c => ((), f c)) next

def await (w : Wait) : Code σ Outcome := fun next => .await w next

/-- Both of two pieces of code. -/
def join (left right : Program σ) : Code σ (Outcome × Outcome) :=
  fun next => .fork .join left right next

/-- Whichever of two pieces of code is over first. -/
def race (left right : Program σ) : Code σ (Outcome ⊕ Outcome) :=
  fun next => .fork .race left right next

def spawn (l : LoopId) (task : Program σ) : Code σ (Except InferError TaskId) :=
  fun next => .spawn l task next

def pending (l : LoopId) (resolver rule : Program σ) : Code σ (Except InferError PendingId) :=
  fun next => .pending l resolver rule next

def rank (p : PendingId) : Code σ (Option Int) := fun next => .rank p next

def runReady (l : LoopId) : Code σ Bool := fun next => .runReady l next

def run (l : LoopId) : Code σ Outcome := fun next => .run l next

def finish (l : LoopId) : Code σ Outcome := fun next => .finish l next

def force (l : LoopId) (p : PendingId) : Code σ Outcome := fun next => .force l p next

def runUntil (l : LoopId) (task : Program σ) : Code σ Outcome := fun next => .runUntil l task next

/-- Code that suspends where a slot waits for an open pending. -/
instance : Host (Code σ) where
  update := update
  settle
    | .pending p => await (.slot (.pending p))
    | slot => pure (.ok slot)

/-- Goes on with a walk that waits for the pendings it meets, to a depth of at most `fuel`. -/
def walk {τ : Type} (fuel : Nat) (v : Variant (Rebuild τ (Code σ))) (n : NodeId) (w : Walk τ) :
    Code σ (Except InferError NodeId × Walk τ) :=
  (((v.visitor fuel).visit n).run).run w

end Code

end ValueInference
