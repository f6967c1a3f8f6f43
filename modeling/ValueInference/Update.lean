/-
Computations on the store.

A client works on a store through a fixed list of changes: it builds nodes and completes
placeholders, makes loops, pendings and tasks, resolves pendings, and collects diagnostics.  An
`Update` is a computation together with the proof that it does nothing else, so whatever every
change keeps, every computation of every client keeps.

* **`Change`** — the changes that a client can make;
* **`Evolves`** — one store comes from another by changes;
* **`Update`** — computations under which a store evolves;
* **`Infer`** — those that may fail; what they changed before they failed stays changed.
-/
import ValueInference.Ordering
import ValueInference.Store.Pending

namespace ValueInference

/-- What a client can do to a store. -/
inductive Change where
  | build (k : Kind)
  | placeholder
  | complete (n : NodeId) (k : Kind)
  /-- Hands out the token of a possibility set. -/
  | token
  | record (d : Diagnostic)
  | collect (enabled : Bool)
  | discard
  | openLoop (config : Config)
  | openPending (l : LoopId) (resolver : Option Resolver) (priority : Priority)
  /-- Adds the task of a deferred merge. -/
  | spawn (l : LoopId) (d : Deferral)
  | setResult (p : PendingId) (slot : Slot)

def Change.apply (s : Store) : Change → Store
  | .build k => (s.build k).2
  | .placeholder => s.placeholder.2
  | .complete n k => (s.complete n k).2
  | .token => { s with tokens := s.tokens + 1 }
  | .record d => s.record d
  | .collect enabled => { s with diagnostics := { s.diagnostics with enabled } }
  | .discard => { s with diagnostics := { s.diagnostics with entries := [] } }
  | .openLoop config => (s.openLoop config).2
  | .openPending l resolver priority => (s.openPending l resolver priority).2
  | .spawn l d => (s.spawn l (.merge d)).2
  | .setResult p slot => (s.setResult p slot).2

/-- The second store comes from the first by changes that clients can make. -/
inductive Evolves (s : Store) : Store → Prop where
  | refl : Evolves s s
  | step {t : Store} (c : Change) : Evolves s t → Evolves s (c.apply t)

namespace Evolves

theorem change (s : Store) (c : Change) : Evolves s (c.apply s) := .step c .refl

theorem trans {s t u : Store} (hst : Evolves s t) (htu : Evolves t u) : Evolves s u := by
  induction htu with
  | refl => exact hst
  | step c _ ih => exact .step c ih

end Evolves

/-- A computation that changes the store as clients can. -/
structure Update (α : Type) where
  run : Store → α × Store
  evolves : ∀ s, Evolves s (run s).2

namespace Update

variable {α β : Type}

protected def pure (a : α) : Update α :=
  ⟨fun s => (a, s), fun _ => .refl⟩

protected def bind (x : Update α) (f : α → Update β) : Update β :=
  ⟨fun s =>
      let (a, t) := x.run s
      (f a).run t,
    fun s => (x.evolves s).trans ((f (x.run s).1).evolves (x.run s).2)⟩

instance : Monad Update where
  pure := Update.pure
  bind := Update.bind

/-- The store as it is now. -/
def store : Update Store :=
  ⟨fun s => (s, s), fun _ => .refl⟩

/-- Makes one change. -/
def change (c : Change) : Update Unit :=
  ⟨fun s => ((), c.apply s), fun s => .change s c⟩

/-- Makes one change that has an answer. -/
def answer (f : Store → α × Store) (c : Change) (h : ∀ s, (f s).2 = c.apply s) : Update α :=
  ⟨f, fun s => h s ▸ .change s c⟩

end Update

/-- A computation that changes the store as clients can, and may fail. -/
abbrev Infer := ExceptT InferError Update

namespace Infer

variable {α : Type}

/-- The store as it is now. -/
def store : Infer Store := ExceptT.lift Update.store

/-- Reads something off the store. -/
def read (f : Store → α) : Infer α := return f (← store)

/-- Carries a fault on as an error. -/
def ofFault (x : Update (Except Fault α)) : Infer α :=
  ExceptT.mk do return (← x).mapError .invalidConstruction

/-- Runs a computation and hands out its outcome, whatever it is. -/
def attempt (x : Infer α) : Infer (Except InferError α) := ExceptT.lift x.run

/-- Builds a node. -/
def make (k : Kind) : Infer NodeId :=
  ofFault (Update.answer (fun s => s.build k) (.build k) fun _ => rfl)

/-- Adds a node that has no form yet. -/
def placeholder : Infer NodeId :=
  ExceptT.lift (Update.answer Store.placeholder .placeholder fun _ => rfl)

/-- Gives a placeholder its form. -/
def complete (n : NodeId) (k : Kind) : Infer Unit :=
  ofFault (Update.answer (fun s => s.complete n k) (.complete n k) fun _ => rfl)

/-- Collects a diagnostic, if collection is enabled. -/
def report (d : Diagnostic) : Infer Unit := ExceptT.lift (Update.change (.record d))

/-- Makes an instance of a possibility set. -/
def possibilities (candidates : List Candidate) : Infer Possibilities :=
  ExceptT.lift do
    let token ← Update.answer (fun s => (s.tokens, { s with tokens := s.tokens + 1 })) .token
      fun _ => rfl
    return ⟨token, candidates⟩

/-- Makes a set of candidates, of which equal ones count once.  A set is not empty. -/
def possibilitiesOf (candidates : List Candidate) : Infer Possibilities := do
  match (← store).addCandidates [] candidates with
  | [] => throw (.invalidConstruction .emptyPossibilities)
  | distinct => possibilities distinct

/-- Makes a loop. -/
def openLoop (config : Config) : Infer LoopId :=
  ExceptT.lift (Update.answer (fun s => s.openLoop config) (.openLoop config) fun _ => rfl)

/-- Registers a pending with a loop. -/
def openPending (l : LoopId) (resolver : Option Resolver) (priority : Priority) :
    Infer PendingId :=
  ofFault (Update.answer (fun s => s.openPending l resolver priority)
    (.openPending l resolver priority) fun _ => rfl)

/-- Registers a pending that only `setResult` can resolve. -/
def hole (l : LoopId) : Infer PendingId := openPending l none .unranked

/-- Adds the task of a deferred merge to a loop. -/
def spawn (l : LoopId) (d : Deferral) : Infer TaskId :=
  ofFault (Update.answer (fun s => s.spawn l (.merge d)) (.spawn l d) fun _ => rfl)

/-- Resolves a pending. -/
def setResult (p : PendingId) (slot : Slot) : Infer Unit :=
  ExceptT.mk (Update.answer (fun s => s.setResult p slot) (.setResult p slot) fun _ => rfl)

-- Nodes by form

def scalar (value : Slot) (ty : Ty) : Infer NodeId := make (.scalar value ty)

/-- The scalar of any value of a type. -/
def anyOf (ty : Ty) : Infer NodeId := make (.scalar .anything ty)

def tuple (items : List NodeId) : Infer NodeId := make (.tuple items)

def list (item : NodeId) : Infer NodeId := make (.list item)

def array (item : NodeId) (shape : Shape) : Infer NodeId := make (.array item shape)

def record (tag : String) (fields : List (String × NodeId)) : Infer NodeId :=
  make (.record tag fields)

/-- The tagged union of some options, in the order of their tags. -/
def tagged (options : List (UInt32 × NodeId)) : Infer NodeId :=
  make (.tagged (stableSort (fun a b => a.1 ≤ b.1) options))

def function (options : Slot) : Infer NodeId := make (.function options)

/-- The function that is one of some references. -/
def functions (refs : List FunctionRef) : Infer NodeId := do
  function (.possibilities (← possibilitiesOf (refs.map .function)))

def jtagged (inner : NodeId) : Infer NodeId := make (.jtagged inner)

def error (reason : ErrorReason) : Infer NodeId := make (.error reason)

/-- The value of what is never reached. -/
def dead : Infer NodeId := error .dead

/-- A type used as a value. -/
def typeValue (ty : Ty) : Infer NodeId := make (.type ty)

end Infer

end ValueInference
