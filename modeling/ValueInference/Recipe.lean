/-
Recipes: variants of rebuilding given by data, and traced.

A recipe names what is to become of scalars, containers, unions, functions and errors; whatever it
leaves out is rebuilt by default.  While it is followed, the names of the forms that are met are
noted.

* **`Recipe.variant`** — the variant that follows a recipe.
-/
import ValueInference.Rebuild

namespace ValueInference

universe u

/-- What becomes of functions. -/
inductive FunctionRule where
  /-- Their candidates are rebuilt. -/
  | rebuild
  | keep
  /-- Their candidates are forgotten. -/
  | forget
deriving DecidableEq

/-- What becomes of the nodes of a value. -/
structure Recipe where
  /-- Scalars of this type are refused. -/
  refused : Option Ty := none
  /-- The width that every signed integer type gets. -/
  intWidth : Option UInt8 := none
  /-- Types to replace; the first pair for a type counts. -/
  retype : List (Ty × Ty) := []
  reverseTuples : Bool := false
  /-- Lists are put behind a differentiation boundary. -/
  wrapLists : Bool := false
  forgetShapes : Bool := false
  /-- Records become tuples of their fields. -/
  untag : Bool := false
  /-- The tag that every record gets. -/
  recordTag : Option String := none
  /-- Unions become their first members. -/
  firstMember : Bool := false
  /-- The option that every tagged union loses. -/
  dropTag : Option UInt32 := none
  functions : FunctionRule := .rebuild
  /-- Values are taken back over a differentiation boundary. -/
  strip : Bool := false
  /-- The value that replaces errors, those of incomplete nodes apart. -/
  errorValue : Option NodeId := none
  /-- Constants become `ANYTHING`. -/
  forgetConstants : Bool := false
  /-- The name that every bare primitive gets. -/
  primitiveName : Option String := none

namespace Recipe

/-- The type that replaces a type, if one does. -/
def retyped? (r : Recipe) (ty : Ty) : Option Ty :=
  match r.intWidth, ty with
  | some bits, .int b => if b = bits then none else some (.int bits)
  | _, ty => r.retype.lookup ty

/-- Walks that note names, the latest first. -/
abbrev Traced (m : Type → Type u) := Rebuild (List String) m

variable {m : Type → Type u} [Host m]

def note (name : String) : Traced m Unit :=
  modify fun w => { w with own := name :: w.own }

/-- The form of a node, in the midst of a walk. -/
def kindOf (n : NodeId) : Traced m Kind :=
  return (← Rebuild.infer Infer.store).kind n

def onScalar (r : Recipe) (v : Visitor (Traced m)) (n : NodeId) (value : Slot) (ty : Ty) :
    Traced m NodeId := do
  note "scalar"
  if r.refused = some ty then
    throw (.invalidConstruction (.custom ("refused " ++ ty.render)))
  match r.retyped? ty with
  | some ty =>
    let new ← v.slot value
    Rebuild.infer (Infer.scalar new ty)
  | none => Rebuild.scalar v n value ty

def onTuple (r : Recipe) (v : Visitor (Traced m)) (n : NodeId) (items : List NodeId) :
    Traced m NodeId := do
  note "tuple"
  let out ← Rebuild.tuple v n items
  match r.reverseTuples, ← kindOf out with
  | true, .tuple items => Rebuild.infer (Infer.tuple items.reverse)
  | _, _ => return out

def onList (r : Recipe) (v : Visitor (Traced m)) (n : NodeId) (item : NodeId) :
    Traced m NodeId := do
  note "list"
  let out ← Rebuild.list v n item
  if r.wrapLists then Rebuild.infer (Infer.jtagged out) else return out

def onArray (r : Recipe) (v : Visitor (Traced m)) (n : NodeId) (item : NodeId) (shape : Shape) :
    Traced m NodeId := do
  note "array"
  if r.forgetShapes then
    let item ← v.visit item
    Rebuild.infer (Infer.array item (shape.map fun _ => none))
  else Rebuild.array v n item shape

def onRecord (r : Recipe) (v : Visitor (Traced m)) (n : NodeId) (tag : String)
    (fields : List (String × NodeId)) : Traced m NodeId := do
  note "class"
  if r.untag then
    let items ← fields.mapM fun field => v.visit field.2
    Rebuild.infer (Infer.tuple items)
  else
    let out ← Rebuild.record v n tag fields
    match r.recordTag, ← kindOf out with
    | some tag, .record _ fields => Rebuild.infer (Infer.record tag fields)
    | _, _ => return out

def onUnion (r : Recipe) (v : Visitor (Traced m)) (n : NodeId) (members : List NodeId) :
    Traced m NodeId := do
  note "union"
  match r.firstMember, members with
  | true, first :: _ => v.visit first
  | _, members => Rebuild.union v n members

def onTagged (r : Recipe) (v : Visitor (Traced m)) (n : NodeId)
    (options : List (UInt32 × NodeId)) : Traced m NodeId := do
  note "tagged"
  match r.dropTag with
  | none => Rebuild.tagged v n options
  | some tag =>
    let left := options.filter fun option => option.1 ≠ tag
    let new ← Rebuild.infer (Infer.tagged left)
    Rebuild.tagged v new left

def onFunction (r : Recipe) (v : Visitor (Traced m)) (n : NodeId) (options : Slot) :
    Traced m NodeId := do
  note "fn"
  match r.functions with
  | .rebuild => Rebuild.function v n options
  | .keep => return n
  | .forget => Rebuild.infer (Infer.function .anything)

def onJtagged (r : Recipe) (v : Visitor (Traced m)) (n : NodeId) (inner : NodeId) :
    Traced m NodeId := do
  note "j"
  if r.strip then v.visit inner else Rebuild.jtagged v n inner

def onError (r : Recipe) (n : NodeId) (reason : ErrorReason) : Traced m NodeId := do
  note "error"
  if reason = .incomplete then return n else return r.errorValue.getD n

def onType (r : Recipe) (n : NodeId) (ty : Ty) : Traced m NodeId := do
  note "ty"
  match r.retyped? ty with
  | some ty => Rebuild.infer (Infer.typeValue ty)
  | none => return n

def onSlot (r : Recipe) (v : Visitor (Traced m)) (slot : Slot) : Traced m Slot := do
  note "slot"
  match r.forgetConstants, slot with
  | true, .constant _ => return .anything
  | _, slot => Rebuild.slot v slot

def onRef (r : Recipe) (v : Visitor (Traced m)) (f : FunctionRef) : Traced m FunctionRef := do
  note "ref"
  match r.primitiveName, f with
  | some name, .primitive prim => return .primitive { prim with name }
  | _, f => Rebuild.ref v f

/-- The variant that follows a recipe. -/
def variant (r : Recipe) : Variant (Traced m) where
  scalar := r.onScalar
  tuple := r.onTuple
  list := r.onList
  array := r.onArray
  record := r.onRecord
  union := r.onUnion
  tagged := r.onTagged
  function := r.onFunction
  jtagged := r.onJtagged
  error _ := r.onError
  type _ := r.onType
  slot := r.onSlot
  ref := r.onRef

end Recipe

end ValueInference
