/-
Rebuilding abstract values node by node.

A `Variant` says what becomes of a node of each form; its plain form rebuilds the nodes below and
gives back the node itself when none of them changed.  A walk remembers its results: shared nodes
have one result, and a node reached again while it is being rebuilt gives a placeholder, which is
completed with the node's result.  Values that contain themselves thus give such values.

A walk takes place in a host monad.  A host for plain updates leaves slots that wait as they are;
a host for computations that can be suspended waits for them.

* **`Rebuild.visit`** — the result of a node, remembered;
* **`Variant.plain`** — the variant that changes nothing by itself;
* **`Infer.rebuild`** — a walk by plain updates, with nothing remembered before.
-/
import ValueInference.Union

universe u

namespace ValueInference

/-- Monads in which abstract values are rebuilt. -/
class Host (m : Type → Type u) extends Monad m where
  /-- Runs an update. -/
  update : {α : Type} → Update α → m α
  /-- What a slot is taken for: the slot itself, or what it stands for once that is known. -/
  settle : Slot → m (Except InferError Slot)

instance : Host Update where
  update x := x
  settle slot := pure (.ok slot)

/-- What a walk remembers. -/
structure Memo where
  /-- Nodes that are rebuilt, with their results. -/
  done : List (NodeId × NodeId) := []
  /-- Nodes that are being rebuilt, with the placeholders that stand for them, if they were
  reached again. -/
  inProgress : List (NodeId × Option NodeId) := []

namespace Memo

/-- Starts on a node. -/
def enter (memo : Memo) (n : NodeId) : Memo :=
  { memo with inProgress := (n, none) :: memo.inProgress.filter fun e => e.1 ≠ n }

/-- Notes the placeholder that stands for a node that is being rebuilt. -/
def expect (memo : Memo) (n placeholder : NodeId) : Memo :=
  { memo with
    inProgress := memo.inProgress.map fun e => if e.1 = n then (n, some placeholder) else e }

/-- Ends the work on a node, with or without a result. -/
def leave (memo : Memo) (n : NodeId) : Memo :=
  { memo with inProgress := memo.inProgress.filter fun e => e.1 ≠ n }

/-- Notes the result of a node. -/
def publish (memo : Memo) (n out : NodeId) : Memo :=
  { memo with done := (n, out) :: memo.done.filter fun e => e.1 ≠ n }

end Memo

/-- The state of a walk: what it remembers, and what a variant keeps for itself. -/
structure Walk (σ : Type) where
  memo : Memo := {}
  own : σ

/-- Computations of a walk.  What was remembered before a failure stays remembered. -/
abbrev Rebuild (σ : Type) (m : Type → Type u) := ExceptT InferError (StateT (Walk σ) m)

/-- The ways to go on below a node. -/
structure Visitor (r : Type → Type u) where
  visit : NodeId → r NodeId
  slot : Slot → r Slot
  ref : FunctionRef → r FunctionRef

/-- What becomes of a node, by its form, and of slots and function references. -/
structure Variant (r : Type → Type u) where
  scalar : Visitor r → NodeId → Slot → Ty → r NodeId
  tuple : Visitor r → NodeId → List NodeId → r NodeId
  list : Visitor r → NodeId → NodeId → r NodeId
  array : Visitor r → NodeId → NodeId → Shape → r NodeId
  record : Visitor r → NodeId → String → List (String × NodeId) → r NodeId
  union : Visitor r → NodeId → List NodeId → r NodeId
  tagged : Visitor r → NodeId → List (UInt32 × NodeId) → r NodeId
  function : Visitor r → NodeId → Slot → r NodeId
  jtagged : Visitor r → NodeId → NodeId → r NodeId
  error : Visitor r → NodeId → ErrorReason → r NodeId
  type : Visitor r → NodeId → Ty → r NodeId
  /-- The VALUE track of scalars, and the options of functions. -/
  slot : Visitor r → Slot → r Slot
  ref : Visitor r → FunctionRef → r FunctionRef

namespace Rebuild

variable {σ : Type} {m : Type → Type u} [Host m]

/-- Runs a computation on the store within a walk. -/
def infer {α : Type} (x : Infer α) : Rebuild σ m α :=
  ExceptT.mk (StateT.lift (Host.update x.run))

def settle (slot : Slot) : Rebuild σ m Slot :=
  ExceptT.mk (StateT.lift (Host.settle slot))

/-- The result of a node, if it is known or has to be a placeholder. -/
def known? (n : NodeId) : Rebuild σ m (Option NodeId) := do
  let memo := (← get).memo
  match memo.done.lookup n with
  | some out => return some out
  | none =>
    match memo.inProgress.lookup n with
    | none => return none
    | some (some placeholder) => return some placeholder
    | some none =>
      let placeholder ← infer Infer.placeholder
      modify fun w => { w with memo := w.memo.expect n placeholder }
      return some placeholder

/-- The result of a node for which a placeholder was handed out: the placeholder, completed with
what the node has become.  One that then equals the node itself is given up for the node. -/
def settlePlaceholder (n : NodeId) (placeholder : Option NodeId) (out : NodeId) :
    Rebuild σ m NodeId := do
  match placeholder with
  | none => return out
  | some ph =>
    if out = ph then return out
    else
      infer (do Infer.complete ph ((← Infer.store).kind out))
      if (← infer Infer.store).equal ph n then return n else return ph

/-- Ends the work on a node, and remembers its result if there is one. -/
def conclude (n : NodeId) (outcome : Except InferError NodeId) : Rebuild σ m NodeId := do
  let placeholder := ((← get).memo.inProgress.lookup n).join
  modify fun w => { w with memo := w.memo.leave n }
  let out ← settlePlaceholder n placeholder (← ExceptT.mk (pure outcome))
  modify fun w => { w with memo := w.memo.publish n out }
  return out

/-- Hands a node to the variant, by its form. -/
def byForm (v : Variant (Rebuild σ m)) (inner : Visitor (Rebuild σ m)) (n : NodeId) :
    Rebuild σ m NodeId := do
  match (← infer Infer.store).kind n with
  | .scalar value ty => v.scalar inner n value ty
  | .tuple items => v.tuple inner n items
  | .list item => v.list inner n item
  | .array item shape => v.array inner n item shape
  | .record tag fields => v.record inner n tag fields
  | .union members => v.union inner n members
  | .tagged options => v.tagged inner n options
  | .function options => v.function inner n options
  | .jtagged x => v.jtagged inner n x
  | .error reason => v.error inner n reason
  | .type ty => v.type inner n ty

/-- The result of a node: the one remembered, or else the variant's. -/
def visit (v : Variant (Rebuild σ m)) (inner : Visitor (Rebuild σ m)) (n : NodeId) :
    Rebuild σ m NodeId := do
  match ← known? n with
  | some out => return out
  | none =>
    modify fun w => { w with memo := w.memo.enter n }
    let outcome ← ExceptT.lift (byForm v inner n).run
    conclude n outcome

-- What becomes of a node by default

def scalar (v : Visitor (Rebuild σ m)) (n : NodeId) (value : Slot) (ty : Ty) :
    Rebuild σ m NodeId := do
  let new ← v.slot value
  if new = value then return n else infer (Infer.scalar new ty)

def tuple (v : Visitor (Rebuild σ m)) (n : NodeId) (items : List NodeId) :
    Rebuild σ m NodeId := do
  let new ← items.mapM v.visit
  if new = items then return n else infer (Infer.tuple new)

def list (v : Visitor (Rebuild σ m)) (n : NodeId) (item : NodeId) :
    Rebuild σ m NodeId := do
  let new ← v.visit item
  if new = item then return n else infer (Infer.list new)

def array (v : Visitor (Rebuild σ m)) (n : NodeId) (item : NodeId) (shape : Shape) :
    Rebuild σ m NodeId := do
  let new ← v.visit item
  if new = item then return n else infer (Infer.array new shape)

def record (v : Visitor (Rebuild σ m)) (n : NodeId) (tag : String)
    (fields : List (String × NodeId)) : Rebuild σ m NodeId := do
  let new ← fields.mapM fun (name, field) => return (name, ← v.visit field)
  if new = fields then return n else infer (Infer.record tag new)

/-- A union whose members changed is put together anew, so members that have become equal are
counted once. -/
def union (v : Visitor (Rebuild σ m)) (n : NodeId) (members : List NodeId) :
    Rebuild σ m NodeId := do
  let new ← members.mapM v.visit
  if new = members then return n else infer (Infer.union new)

def tagged (v : Visitor (Rebuild σ m)) (n : NodeId) (options : List (UInt32 × NodeId)) :
    Rebuild σ m NodeId := do
  let new ← options.mapM fun (tag, option) => return (tag, ← v.visit option)
  if new = options then return n else infer (Infer.tagged new)

def function (v : Visitor (Rebuild σ m)) (n : NodeId) (options : Slot) :
    Rebuild σ m NodeId := do
  let new ← v.slot options
  if new = options then return n else infer (Infer.function new)

def jtagged (v : Visitor (Rebuild σ m)) (n : NodeId) (inner : NodeId) :
    Rebuild σ m NodeId := do
  let new ← v.visit inner
  if new = inner then return n else infer (Infer.jtagged new)

/-- A candidate after the walk, and whether it changed. -/
def visitCandidate (v : Visitor (Rebuild σ m)) : Candidate → Rebuild σ m (Candidate × Bool)
  | .constant c => return (.constant c, false)
  | .function f => do
    let new ← v.ref f
    return (.function new, !(← infer Infer.store).equalRefs new f)

/-- Rebuilds the function candidates of what a slot is taken for. -/
def slot (v : Visitor (Rebuild σ m)) (slot : Slot) : Rebuild σ m Slot := do
  match ← settle slot with
  | .possibilities p =>
    let new ← p.candidates.mapM (visitCandidate v)
    if new.any Prod.snd then
      return .possibilities (← infer (Infer.possibilitiesOf (new.map Prod.fst)))
    else return .possibilities p
  | settled => return settled

def ref (v : Visitor (Rebuild σ m)) : FunctionRef → Rebuild σ m FunctionRef
  | .primitive prim => return .primitive prim
  | .typed prim args output => return .typed prim (← args.mapM v.visit) (← v.visit output)
  | .partialApp func args => return .partialApp (← v.ref func) (← args.mapM v.visit)
  | .virtual args output => return .virtual (← args.mapM v.visit) (← v.visit output)
  | .graph name => return .graph name

end Rebuild

namespace Variant

variable {σ : Type} {m : Type → Type u} [Host m]

/-- The variant that does everything by default. -/
def plain : Variant (Rebuild σ m) where
  scalar := Rebuild.scalar
  tuple := Rebuild.tuple
  list := Rebuild.list
  array := Rebuild.array
  record := Rebuild.record
  union := Rebuild.union
  tagged := Rebuild.tagged
  function := Rebuild.function
  jtagged := Rebuild.jtagged
  error _ n _ := return n
  type _ n _ := return n
  slot := Rebuild.slot
  ref := Rebuild.ref

/-- The ways to go on below a node, to a depth of at most `fuel`.  Each level is made when it is
entered. -/
def visitor (v : Variant (Rebuild σ m)) : Nat → Visitor (Rebuild σ m)
  | 0 => ⟨fun _ => throw .endless, fun _ => throw .endless, fun _ => throw .endless⟩
  | fuel + 1 =>
    ⟨fun n => Rebuild.visit v (visitor v fuel) n, fun slot => v.slot (visitor v fuel) slot,
      fun f => v.ref (visitor v fuel) f⟩

end Variant

/-- How many partial applications the candidates of a form are nested in, at most. -/
def Kind.refDepth (k : Kind) : Nat :=
  match k.slot? with
  | some (.possibilities p) =>
    p.candidates.foldl (fun depth c => max depth ((c.function?.map FunctionRef.depth).getD 0)) 0
  | _ => 0

/-- How deep a walk goes at most: it is inside each node once, there inside a slot, and there
inside a nest of function references. -/
def Store.walkDepth (s : Store) : Nat :=
  s.nodes.foldl (fun depth node => depth + 3 + (node.kind.map Kind.refDepth).getD 0) 1

namespace Infer

variable {σ : Type}

/-- Goes on with a walk by plain updates. -/
def walk (v : Variant (Rebuild σ Update)) (n : NodeId) (w : Walk σ) :
    Update (Except InferError NodeId × Walk σ) := do
  let depth := (← Update.store).walkDepth
  (((v.visitor depth).visit n).run).run w

/-- Rebuilds a value, with nothing remembered before. -/
def rebuild (v : Variant (Rebuild Unit Update)) (n : NodeId) : Infer NodeId :=
  ExceptT.mk do return (← walk v n { own := () }).1

/-- Rebuilds a value without any change of its own. -/
def identity (n : NodeId) : Infer NodeId := rebuild .plain n

end Infer

end ValueInference
