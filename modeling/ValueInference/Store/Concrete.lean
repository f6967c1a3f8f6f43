/-
Reading concrete values and types off abstract values.

Both walks keep the path of the nodes they are in; a node that is on it contains itself and has
no value and no type.  A path holds no node twice, so no walk is deeper than the store has nodes.

* **`Store.value`** — the one concrete value that an abstract value describes;
* **`Store.typeOf`** — the concrete type that it describes;
* **`Store.typeOfRef`** — the type of a function reference, given the types of nodes.
-/
import ValueInference.Store.Render

namespace ValueInference

/-- An answer about an abstract value, or why there is none. -/
abbrev Reading := Except InferError

/-- There is no unique answer about a node. -/
def indeterminate {α : Type} (n : NodeId) (reason : Indeterminacy) : Reading α :=
  .error (.indeterminate n reason)

namespace Store

/-- The value of a node's form, given the values of nodes. -/
def valueOfKind (s : Store) (sub : NodeId → Reading Constant) (n : NodeId) :
    Kind → Reading Constant
  | .scalar value _ =>
    match s.resolve value with
    | .constant c => .ok c
    | other => indeterminate n (.notConstant (s.renderSlot other))
  | .tuple items => return .tuple (← items.mapM sub)
  | .record tag fields => return .record tag (← fields.mapM fun (name, x) => return (name, ← sub x))
  | .type ty => .ok (.type ty)
  | _ => indeterminate n .noValue

/-- The value of a node below the nodes of `path`, to a depth of at most `fuel`. -/
def valueBelow (s : Store) : Nat → List NodeId → NodeId → Reading Constant
  | 0, _, n => indeterminate n .containsItself
  | fuel + 1, path, n =>
    if n ∈ path then indeterminate n .containsItself
    else s.valueOfKind (s.valueBelow fuel (n :: path)) n (s.kind n)

/-- The one concrete value that a node describes.  Scalars need a known VALUE, tuples and records
one for every member, and a type value is its type; nothing else has a value. -/
def value (s : Store) (n : NodeId) : Reading Constant :=
  s.valueBelow (s.nodes.size + 1) [] n

/-- The value of a node as a slot, or the default if it is not determined. -/
def valueOr (s : Store) (n : NodeId) (default : Slot) : Slot :=
  match s.value n with
  | .ok c => .constant c
  | .error _ => default

/-- The union type of some types. -/
def unionType (ts : List Ty) : Reading Ty :=
  match Ty.union? ts with
  | some t => .ok t
  | none => .error (.invalidConstruction .emptyTypeUnion)

/-- The type of a reference to a function, for the function value `n`.  A partial application
takes the arguments that are left. -/
def typeOfRef (sub : NodeId → Reading Ty) (n : NodeId) : FunctionRef → Reading Ty
  | .primitive prim => .ok (.ofSignature? prim.signature)
  | .typed _ args output | .virtual args output => do
    let args ← args.mapM sub
    return .function args (← sub output)
  | .partialApp func args => do
    match ← typeOfRef sub n func with
    | .function params result =>
      if params.length < args.length then
        indeterminate n (.tooManyArguments args.length (.function params result))
      else return .function (params.drop args.length) result
    | other => return other
  | .graph _ => .ok .anyFunction

/-- The type on which all candidates agree, after those that gave `found`. -/
def typeOfCandidates (s : Store) (sub : NodeId → Reading Ty) (n : NodeId) :
    Option Ty → List Candidate → Reading Ty
  | none, [] => indeterminate n .noCandidates
  | some t, [] => .ok t
  | _, .constant c :: _ => indeterminate n (.notFunction (s.renderCandidate (.constant c)))
  | found, .function f :: cs => do
    let t ← typeOfRef sub n f
    match found with
    | none => s.typeOfCandidates sub n (some t) cs
    | some first =>
      if first = t then s.typeOfCandidates sub n (some first) cs
      else indeterminate n (.disagreement first t)

/-- The type of a node's form, given the types of nodes. -/
def typeOfKind (s : Store) (sub : NodeId → Reading Ty) (n : NodeId) : Kind → Reading Ty
  | .scalar _ ty => .ok ty
  | .tuple items => return .tuple (← items.mapM sub)
  | .list item => return .list (← sub item)
  | .array item _ => return .array (← sub item)
  | .record tag _ => .ok (.record tag)
  | .union members => do unionType (← members.mapM sub)
  | .tagged options => do unionType (← options.mapM fun (_, x) => sub x)
  | .function options =>
    match s.resolve options with
    | .anything => .ok .anyFunction
    | .possibilities p => s.typeOfCandidates sub n none p.candidates
    | other => indeterminate n (.unknownCandidates (s.renderSlot other))
  | .jtagged inner => return .jtagged (← sub inner)
  | .type _ => .ok .typeType
  | .error reason => indeterminate n (.errorValue reason)

/-- The type of a node below the nodes of `path`, to a depth of at most `fuel`. -/
def typeBelow (s : Store) : Nat → List NodeId → NodeId → Reading Ty
  | 0, _, n => indeterminate n .recursiveType
  | fuel + 1, path, n =>
    if n ∈ path then indeterminate n .recursiveType
    else s.typeOfKind (s.typeBelow fuel (n :: path)) n (s.kind n)

/-- The concrete type that a node describes.  Candidates of a function have to agree on one type;
unknown candidates have the generic function type. -/
def typeOf (s : Store) (n : NodeId) : Reading Ty :=
  s.typeBelow (s.nodes.size + 1) [] n

end Store

end ValueInference
