/-
Text of abstract values, on one line.

    S(VALUE=1, TYPE=Int[64])            scalar with a known value
    S(TYPE=Float[32])                   scalar of any value
    T(a, b)  L(x)  A(x, SHAPE=(4, 5))   containers
    *Point(x=..., y=...)                record
    U(a, b)  TU(0: a, 1: b)             unions
    Fn(Possibilities({scalar_mul}))     function
    J(x)  E(DEAD)  Ty(Float[32])        wrappers

A value that contains itself shows `#rec` where it recurs.  A node is shown below itself at most
once, so a walk is never deeper than the store has nodes.
-/
import ValueInference.Store.Basic

namespace ValueInference

def Shape.render (shape : Shape) : String :=
  let dims := shape.map fun
    | some n => toString n.toNat
    | none => "?"
  match dims with
  | [d] => "(" ++ d ++ ",)"
  | dims => "(" ++ ", ".intercalate dims ++ ")"

/-- Text of a function reference, given the texts of nodes. -/
def FunctionRef.render (sub : NodeId → String) : FunctionRef → String
  | .primitive prim => prim.name
  | .typed prim args output =>
    prim.name ++ "[(" ++ ", ".intercalate (args.map sub) ++ ") -> " ++ sub output ++ "]"
  | .partialApp func args =>
    "partial(" ++ ", ".intercalate (func.render sub :: args.map sub) ++ ")"
  | .virtual args output =>
    "Virtual((" ++ ", ".intercalate (args.map sub) ++ ") -> " ++ sub output ++ ")"
  | .graph name => "Graph(" ++ name ++ ")"

def Candidate.render (sub : NodeId → String) : Candidate → String
  | .constant c => c.render
  | .function f => f.render sub

def Possibilities.render (sub : NodeId → String) (p : Possibilities) : String :=
  "Possibilities(\x7b" ++ ", ".intercalate (p.candidates.map (Candidate.render sub)) ++ "\x7d)"

namespace Store

/-- Text of what a slot stands for, given the texts of nodes. -/
def renderSlotWith (s : Store) (sub : NodeId → String) (slot : Slot) : String :=
  match s.resolve slot with
  | .constant c => c.render
  | .anything => "ANYTHING"
  | .possibilities p => p.render sub
  | .pending p => s!"Pending#{s.pendingNumber p}"

/-- Text of a form, given the texts of nodes. -/
def renderKindWith (s : Store) (sub : NodeId → String) : Kind → String
  | .scalar value ty =>
    match s.resolve value with
    | .anything => "S(TYPE=" ++ ty.render ++ ")"
    | known => "S(VALUE=" ++ s.renderSlotWith sub known ++ ", TYPE=" ++ ty.render ++ ")"
  | .tuple items => "T(" ++ ", ".intercalate (items.map sub) ++ ")"
  | .list item => "L(" ++ sub item ++ ")"
  | .array item shape => "A(" ++ sub item ++ ", SHAPE=" ++ shape.render ++ ")"
  | .record tag fields =>
    "*" ++ tag ++ "(" ++
      ", ".intercalate (fields.map fun (name, n) => name ++ "=" ++ sub n) ++ ")"
  | .union members => "U(" ++ ", ".intercalate (members.map sub) ++ ")"
  | .tagged options =>
    "TU(" ++ ", ".intercalate (options.map fun (tag, n) => s!"{tag.toNat}: " ++ sub n) ++ ")"
  | .function options => "Fn(" ++ s.renderSlotWith sub options ++ ")"
  | .jtagged inner => "J(" ++ sub inner ++ ")"
  | .error reason => "E(" ++ reason.render ++ ")"
  | .type ty => "Ty(" ++ ty.render ++ ")"

/-- Text of a node below the nodes of `path`, to a depth of at most `fuel`. -/
def renderBelow (s : Store) : Nat → List NodeId → NodeId → String
  | 0, _, _ => "#rec"
  | fuel + 1, path, n =>
    if n ∈ path then "#rec"
    else s.renderKindWith (s.renderBelow fuel (n :: path)) (s.kind n)

/-- Text of a node. -/
def render (s : Store) (n : NodeId) : String :=
  s.renderBelow (s.nodes.size + 1) [] n

def renderSlot (s : Store) (slot : Slot) : String :=
  s.renderSlotWith s.render slot

def renderPossibilities (s : Store) (p : Possibilities) : String :=
  p.render s.render

def renderCandidate (s : Store) (c : Candidate) : String :=
  c.render s.render

def renderFunctionRef (s : Store) (f : FunctionRef) : String :=
  f.render s.render

/-- Text of one side of a conflict. -/
def renderConflict (s : Store) : Conflict → String
  | .value n => s.render n
  | .type ty => ty.render
  | .slot slot => s.renderSlot slot

/-- Text of an error. -/
def message (s : Store) : InferError → String
  | .typeMismatch left right reason =>
    "type mismatch between " ++ s.renderConflict left ++ " and " ++ s.renderConflict right ++
      ": " ++ reason.message
  | .indeterminate value reason =>
    "cannot determine a unique result for " ++ s.render value ++ ": " ++ reason.message
  | .deadlock blocked =>
    "inference loop cannot make progress (blocked pendings: [" ++
      ", ".intercalate (blocked.map toString) ++ "])"
  | .resolverFailed pending source =>
    s!"resolver of pending #{pending} failed: " ++ s.message source
  | .invalidConstruction fault => "invalid abstract value: " ++ fault.message
  | .unboundPending => "cannot merge an unresolved pending value without an inference loop"
  | .alreadyResolved pending => s!"pending #{pending} is already resolved"
  | .config fault => "invalid inference configuration: " ++ fault.message
  | .endless => "a value that contains itself does not settle"

end Store

end ValueInference
