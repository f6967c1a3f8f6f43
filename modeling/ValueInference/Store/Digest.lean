/-
Digests: numbers for the contents of nodes.

The *content* of a node is its form with every node below replaced by a number for that node's
content, every pending by its number within its loop, and every possibility set by its candidates.
Contents that differ only in the order of record fields, options, union members or candidates get
the same number.  A node that may lie on a cycle is unfolded to a bounded depth, where the number
`0` stands for everything below.

* **`Store.contentNumber`** — the number of a node's content;
* **`Store.sameHash`** — whether two nodes have the same number.
-/
import ValueInference.Store.Basic

namespace ValueInference

/-- Replaces the nodes in a function reference, from left to right. -/
def FunctionRef.traverse {m : Type → Type} [Monad m] (f : NodeId → m Nat) :
    FunctionRef → m FunctionRef
  | .primitive prim => pure (.primitive prim)
  | .typed prim args output => return .typed prim (← args.mapM f) (← f output)
  | .partialApp func args => return .partialApp (← func.traverse f) (← args.mapM f)
  | .virtual args output => return .virtual (← args.mapM f) (← f output)
  | .graph name => pure (.graph name)

def Candidate.traverse {m : Type → Type} [Monad m] (f : NodeId → m Nat) : Candidate → m Candidate
  | .constant c => pure (.constant c)
  | .function func => return .function (← func.traverse f)

/-- Replaces the nodes in a slot, and a pending by its number. -/
def Slot.traverse {m : Type → Type} [Monad m] (f : NodeId → m Nat) (number : PendingId → Nat) :
    Slot → m Slot
  | .possibilities p => return .possibilities ⟨0, ← p.candidates.mapM (Candidate.traverse f)⟩
  | .pending p => pure (.pending (number p))
  | slot => pure slot

/-- Replaces the nodes in a form, and the pendings by their numbers. -/
def Kind.traverse {m : Type → Type} [Monad m] (f : NodeId → m Nat) (number : PendingId → Nat) :
    Kind → m Kind
  | .scalar value ty => return .scalar (← value.traverse f number) ty
  | .tuple items => return .tuple (← items.mapM f)
  | .list item => return .list (← f item)
  | .array item shape => return .array (← f item) shape
  | .record tag fields => return .record tag (← fields.mapM fun (name, n) => return (name, ← f n))
  | .union members => return .union (← members.mapM f)
  | .tagged options => return .tagged (← options.mapM fun (tag, n) => return (tag, ← f n))
  | .function options => return .function (← options.traverse f number)
  | .jtagged inner => return .jtagged (← f inner)
  | .error reason => pure (.error reason)
  | .type ty => pure (.type ty)

/-- Whether two slots of contents agree up to the order of candidates. -/
def Slot.sameContent : Slot → Slot → Bool
  | .possibilities p, .possibilities q => p.candidates.isPerm q.candidates
  | a, b => a == b

/-- Whether two contents agree up to the order of what has no order. -/
def Kind.sameContent : Kind → Kind → Bool
  | .scalar value ty, .scalar value' ty' => ty == ty' && value.sameContent value'
  | .record tag fields, .record tag' fields' => tag == tag' && fields.isPerm fields'
  | .union members, .union members' => members.isPerm members'
  | .tagged options, .tagged options' => options.isPerm options'
  | .function options, .function options' => options.sameContent options'
  | a, b => a == b

/-- Contents in the order in which they were first met; the numbers count from one. -/
abbrev Contents := Array Kind

/-- The number of a content, which is added if it is new. -/
def Contents.number (k : Kind) (contents : Contents) : Nat × Contents :=
  match contents.findIdx? fun c => c.sameContent k with
  | some i => (i + 1, contents)
  | none => (contents.size + 1, contents.push k)

namespace Store

/-- How deep a node that may lie on a cycle is unfolded. -/
def unfoldDepth : Nat := 4

/-- The content of a form over nodes that all have digests. -/
def content (s : Store) (k : Kind) : Kind :=
  Id.run (k.traverse (fun n => pure ((s.digest n).getD 0)) s.pendingNumber)

/-- The number of a node's content, with `depth` levels of unfolding left. -/
def contentNumber (s : Store) : Nat → NodeId → StateM Contents Nat
  | depth, n =>
    match s.digest n, depth with
    | some d, _ => pure d
    | none, 0 => pure 0
    | none, depth + 1 => do
      let k ← (s.kind n).traverse (s.contentNumber depth) s.pendingNumber
      modifyGet (Contents.number k)

/-- The number of a form's content over nodes unfolded to the usual depth. -/
def kindNumber (s : Store) (k : Kind) : StateM Contents Nat := do
  let k ← k.traverse (s.contentNumber unfoldDepth) s.pendingNumber
  modifyGet (Contents.number k)

/-- Whether two computations of numbers over the known contents agree. -/
def sameNumber (s : Store) (a b : StateM Contents Nat) : Bool :=
  ((do return (← a) == (← b) : StateM Contents Bool).run s.contents).1

/-- Whether two nodes feed the same data to a hash. -/
def sameHash (s : Store) (a b : NodeId) : Bool :=
  s.sameNumber (s.contentNumber unfoldDepth a) (s.contentNumber unfoldDepth b)

/-- Whether two slots feed the same data to a hash. -/
def sameSlotHash (s : Store) (a b : Slot) : Bool :=
  s.sameNumber (s.kindNumber (.function a)) (s.kindNumber (.function b))

end Store

end ValueInference
