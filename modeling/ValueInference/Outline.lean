/-
Outlines: the whole make-up of a value as a tree, with what its text hides.

Every form is named; unresolved and resolved pendings are told apart, signatures of primitives are
shown, and a node that is met below itself is given by its place on the path from the root.

* **`Constant.outline`** — the outline of a constant;
* **`Store.outline`** — the outline of an abstract value.
-/
import ValueInference.Store.Render

namespace ValueInference

/-- A tree of named forms. -/
inductive Outline where
  | absent
  | text (s : String)
  | number (n : Nat)
  | flag (b : Bool)
  | sequence (items : List Outline)
  | form (name : String) (body : Outline)
deriving Inhabited

namespace Outline

/-- Hexadecimal digits of a word, all sixteen of them. -/
def hexWord (bits : UInt64) : String :=
  let digits := Nat.toDigits 16 bits.toNat
  String.ofList (List.replicate (16 - digits.length) '0' ++ digits)

/-- An integer, as text. -/
def integer (n : Int) : Outline := .text (toString n)

end Outline

mutual

/-- The outline of a constant. -/
def Constant.outline : Constant → Outline
  | .int n => .form "int" (.integer n.toInt)
  | .uint n => .form "uint" (.integer n.toNat)
  | .float bits => .form "float" (.text (Outline.hexWord bits))
  | .bool b => .form "bool" (.flag b)
  | .string s => .form "str" (.text s)
  | .nil => .text "nil"
  | .tuple items => .form "tuple" (.sequence (Constant.outlines items))
  | .list items => .form "list" (.sequence (Constant.outlines items))
  | .record tag fields =>
    .form "record" (.sequence [.text tag, .sequence (Constant.fieldOutlines fields)])
  | .key node index => .form "key" (.sequence [.text node, .integer index.toInt])
  | .type ty => .form "type" (.text ty.render)

def Constant.outlines : List Constant → List Outline
  | [] => []
  | c :: cs => c.outline :: Constant.outlines cs

def Constant.fieldOutlines : List (String × Constant) → List Outline
  | [] => []
  | (name, c) :: fields => .sequence [.text name, c.outline] :: Constant.fieldOutlines fields

end

def Primitive.outline (prim : Primitive) : Outline :=
  .sequence [.text prim.name,
    match prim.signature with
    | some s => .text (Ty.function s.args s.result).render
    | none => .absent]

/-- The outline of a function reference, given the outlines of nodes. -/
def FunctionRef.outline (sub : NodeId → Outline) : FunctionRef → Outline
  | .primitive prim => .form "prim" prim.outline
  | .typed prim args output =>
    .form "typed" (.sequence [prim.outline, .sequence (args.map sub), sub output])
  | .partialApp func args =>
    .form "partial" (.sequence [func.outline sub, .sequence (args.map sub)])
  | .virtual args output => .form "virtual" (.sequence [.sequence (args.map sub), sub output])
  | .graph name => .form "graph" (.text name)

def Candidate.outline (sub : NodeId → Outline) : Candidate → Outline
  | .constant c => c.outline
  | .function f => .form "fn" (f.outline sub)

def Possibilities.outline (sub : NodeId → Outline) (p : Possibilities) : Outline :=
  .sequence (p.candidates.map (Candidate.outline sub))

namespace Store

/-- The outline of a slot, given the outlines of nodes, through at most `fuel` pendings. -/
def slotOutlineWithin (s : Store) (sub : NodeId → Outline) : Nat → Slot → Outline
  | _, .anything => .text "anything"
  | _, .constant c => c.outline
  | _, .possibilities p => .form "poss" (p.outline sub)
  | fuel, .pending p =>
    let result :=
      match fuel, s.result? p with
      | fuel + 1, some slot => s.slotOutlineWithin sub fuel slot
      | _, _ => .absent
    .form "pending" (.sequence [.number (s.pendingNumber p), result])

def slotOutlineWith (s : Store) (sub : NodeId → Outline) (slot : Slot) : Outline :=
  s.slotOutlineWithin sub s.pendings.size slot

/-- The outline of a form, given the outlines of nodes. -/
def kindOutline (s : Store) (sub : NodeId → Outline) : Kind → Outline
  | .scalar value ty => .form "scalar" (.sequence [s.slotOutlineWith sub value, .text ty.render])
  | .tuple items => .form "tuple" (.sequence (items.map sub))
  | .list item => .form "list" (sub item)
  | .array item shape => .form "array" (.sequence [sub item, .text shape.render])
  | .record tag fields =>
    .form "class" (.sequence [.text tag,
      .sequence (fields.map fun (name, n) => .sequence [.text name, sub n])])
  | .union members => .form "union" (.sequence (members.map sub))
  | .tagged options =>
    .form "tagged"
      (.sequence (options.map fun (tag, n) => .sequence [.number tag.toNat, sub n]))
  | .function options => .form "fn" (s.slotOutlineWith sub options)
  | .jtagged inner => .form "j" (sub inner)
  | .error reason => .form "error" (.text reason.render)
  | .type ty => .form "ty" (.text ty.render)

/-- The outline of a node below the nodes of `path`, the root last, to a depth of at most
`fuel`. -/
def outlineBelow (s : Store) : Nat → List NodeId → NodeId → Outline
  | 0, _, _ => .absent
  | fuel + 1, path, n =>
    match path.reverse.findIdx? (· == n) with
    | some place => .form "rec" (.number place)
    | none => s.kindOutline (s.outlineBelow fuel (n :: path)) (s.kind n)

/-- The outline of a node. -/
def outline (s : Store) (n : NodeId) : Outline :=
  s.outlineBelow (s.nodes.size + 1) [] n

def slotOutline (s : Store) (slot : Slot) : Outline :=
  s.slotOutlineWith s.outline slot

end Store

/-- The name of a form. -/
def Kind.name : Kind → String
  | .scalar _ _ => "scalar"
  | .tuple _ => "tuple"
  | .list _ => "list"
  | .array _ _ => "array"
  | .record _ _ => "class"
  | .union _ => "union"
  | .tagged _ => "tagged"
  | .function _ => "fn"
  | .jtagged _ => "j"
  | .error _ => "error"
  | .type _ => "ty"

end ValueInference
