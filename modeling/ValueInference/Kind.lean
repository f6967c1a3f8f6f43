/-
The forms of an abstract value.

An abstract value describes the values an expression may take.  It lives in a store as a *node*,
and a node's form is a `Kind` over the nodes below it.  Nodes, pendings, loops and tasks are
referred to by number, so that "the same instance" is plain equality, and sharing and cycles are
facts about a store.

* **`Kind.children`** — the nodes directly below a form, those inside function references
  included; pendings are not followed.
-/
import ValueInference.Constant

namespace ValueInference

/-- A node of the store. -/
abbrev NodeId := Nat

/-- A pending value of the store, of whatever loop. -/
abbrev PendingId := Nat

abbrev LoopId := Nat

/-- A task, numbered within its loop. -/
abbrev TaskId := Nat

/-- A primitive operation, known by its name; the signature is for a bare reference to it. -/
structure Primitive where
  name : String
  signature : Option Signature
deriving DecidableEq

/-- One function that a function value may refer to. -/
inductive FunctionRef where
  | primitive (prim : Primitive)
  /-- A primitive at given arguments and output. -/
  | typed (prim : Primitive) (args : List NodeId) (output : NodeId)
  /-- A function with its leading arguments bound. -/
  | partialApp (func : FunctionRef) (args : List NodeId)
  /-- A function known by its arguments and output alone. -/
  | virtual (args : List NodeId) (output : NodeId)
  /-- A user's graph. -/
  | graph (name : String)
deriving DecidableEq

/-- A member of a possibility set. -/
inductive Candidate where
  | constant (c : Constant)
  | function (f : FunctionRef)
deriving DecidableEq

/-- A finite set of candidates, in the order in which they came.  Each set carries a token of its
own: two sets are the same instance when their tokens agree. -/
structure Possibilities where
  token : Nat
  candidates : List Candidate
deriving DecidableEq

/-- The VALUE track of a scalar, and the options of a function.  Equality of slots is identity:
constants by value, sets and pendings by instance. -/
inductive Slot where
  | constant (c : Constant)
  /-- Any value of the type beside it. -/
  | anything
  | possibilities (p : Possibilities)
  /-- Not known yet. -/
  | pending (p : PendingId)
deriving DecidableEq

/-- The size of an array along one axis, where it is known. -/
abbrev Shape := List (Option UInt64)

/-- Why a value is an error. -/
inductive ErrorReason where
  /-- The value is unreachable. -/
  | dead
  /-- The node is a placeholder that has no form yet. -/
  | incomplete
  | custom (text : String)
deriving DecidableEq

/-- The form of an abstract value. -/
inductive Kind where
  | scalar (value : Slot) (ty : Ty)
  | tuple (items : List NodeId)
  | list (item : NodeId)
  | array (item : NodeId) (shape : Shape)
  | record (tag : String) (fields : List (String × NodeId))
  | union (members : List NodeId)
  | tagged (options : List (UInt32 × NodeId))
  | function (options : Slot)
  /-- A value that crossed a differentiation boundary. -/
  | jtagged (inner : NodeId)
  | error (reason : ErrorReason)
  /-- A type used as a value. -/
  | type (ty : Ty)
deriving DecidableEq

namespace FunctionRef

/-- The nodes a reference mentions. -/
def children : FunctionRef → List NodeId
  | .primitive _ | .graph _ => []
  | .typed _ args output | .virtual args output => args ++ [output]
  | .partialApp func args => func.children ++ args

/-- How many partial applications a reference is nested in. -/
def depth : FunctionRef → Nat
  | .partialApp func _ => func.depth + 1
  | _ => 0

end FunctionRef

namespace Candidate

def constant? : Candidate → Option Constant
  | .constant c => some c
  | .function _ => none

def function? : Candidate → Option FunctionRef
  | .function f => some f
  | .constant _ => none

def children : Candidate → List NodeId
  | .constant _ => []
  | .function f => f.children

end Candidate

namespace Possibilities

def size (p : Possibilities) : Nat := p.candidates.length

/-- How many of the candidates are constants. -/
def constantCount (p : Possibilities) : Nat :=
  (p.candidates.filter fun c => c.constant?.isSome).length

end Possibilities

namespace Slot

def constant? : Slot → Option Constant
  | .constant c => some c
  | _ => none

def isAnything : Slot → Bool
  | .anything => true
  | _ => false

def children : Slot → List NodeId
  | .possibilities p => p.candidates.flatMap Candidate.children
  | _ => []

/-- The pendings a slot mentions: itself, if it is one. -/
def pendings : Slot → List PendingId
  | .pending p => [p]
  | _ => []

end Slot

namespace Kind

def children : Kind → List NodeId
  | .scalar value _ => value.children
  | .tuple items | .union items => items
  | .list item | .jtagged item => [item]
  | .array item _ => [item]
  | .record _ fields => fields.map Prod.snd
  | .tagged options => options.map Prod.snd
  | .function options => options.children
  | .error _ | .type _ => []

/-- The slot of a form that has one. -/
def slot? : Kind → Option Slot
  | .scalar value _ => some value
  | .function options => some options
  | _ => none

def isUnion : Kind → Bool
  | .union _ => true
  | _ => false

end Kind

end ValueInference
