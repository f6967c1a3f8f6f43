/-
Concrete values: the constants in the VALUE track of scalars.

* **`Constant.beq_iff`** — the decidable equality of constants; floating point numbers are kept
  as their bits, so a NaN equals itself and the two zeros differ;
* **`Constant.typeOf`** — the natural type of a constant;
* **`Constant.inRange?`** — the range of an integer type, in 128-bit arithmetic;
* **`Constant.fits`** — which types may describe a constant.
-/
import ValueInference.Ty
import ValueInference.Decimal.Notation
import ValueInference.Text.Quoted

namespace ValueInference

/-- A signed integer of 128 bits.  Every 64-bit integer is one, signed or not. -/
abbrev Wide := BitVec 128

namespace Wide

def ofInt64 (n : Int64) : Wide := n.toBitVec.signExtend 128

def ofUInt64 (n : UInt64) : Wide := n.toBitVec.setWidth 128

/-- The number with this bit alone.  There are 128 bits to shift over. -/
def bit? (k : UInt32) : Option Wide :=
  if k < 128 then some (1#128 <<< k.toNat) else none

/-- The number below zero by as much.  The least number has none. -/
def negated? (v : Wide) : Option Wide :=
  if v = BitVec.intMin 128 then none else some (-v)

end Wide

/-- The count before this one.  There is none before zero. -/
def lower? (k : UInt32) : Option UInt32 :=
  if k = 0 then none else some (k - 1)

/-- A concrete value.  A floating point number is given by its 64 bits. -/
inductive Constant where
  | int (value : Int64)
  | uint (value : UInt64)
  | float (bits : UInt64)
  | bool (value : Bool)
  | string (value : String)
  | nil
  | tuple (items : List Constant)
  | list (items : List Constant)
  /-- An instance of the record type with this tag. -/
  | record (tag : String) (fields : List (String × Constant))
  /-- A key into a gradient environment: a graph node and an index that tells its keys apart. -/
  | key (node : String) (index : Int64)
  | type (ty : Ty)
deriving Inhabited

namespace Constant

mutual

/-- Whether two constants are the same; floats are compared by their bits. -/
def beq : Constant → Constant → Bool
  | .int a, .int b => a == b
  | .uint a, .uint b => a == b
  | .float a, .float b => a == b
  | .bool a, .bool b => a == b
  | .string a, .string b => a == b
  | .nil, .nil => true
  | .tuple as, .tuple bs => beqList as bs
  | .list as, .list bs => beqList as bs
  | .record s as, .record t bs => s == t && beqFields as bs
  | .key m i, .key n j => m == n && i == j
  | .type a, .type b => a == b
  | _, _ => false

def beqList : List Constant → List Constant → Bool
  | [], [] => true
  | a :: as, b :: bs => beq a b && beqList as bs
  | _, _ => false

def beqFields : List (String × Constant) → List (String × Constant) → Bool
  | [], [] => true
  | (m, a) :: as, (n, b) :: bs => m == n && beq a b && beqFields as bs
  | _, _ => false

end

mutual

theorem beq_iff (a b : Constant) : beq a b = true ↔ a = b := by
  cases a <;> cases b <;> simp [beq, beqList_iff, beqFields_iff]

theorem beqList_iff (as bs : List Constant) : beqList as bs = true ↔ as = bs := by
  cases as <;> cases bs <;> simp [beqList, beq_iff, beqList_iff]

theorem beqFields_iff (as bs : List (String × Constant)) : beqFields as bs = true ↔ as = bs := by
  rcases as with _ | ⟨⟨m, a⟩, as⟩ <;> rcases bs with _ | ⟨⟨n, b⟩, bs⟩ <;>
    simp [beqFields, beq_iff, beqFields_iff, and_assoc]

end

instance : DecidableEq Constant := fun a b => decidable_of_iff _ (beq_iff a b)

mutual

/-- The natural type of a constant.  The items of a list share the union of their types, and an
empty list leaves its item type unknown. -/
def typeOf : Constant → Ty
  | .int _ => .i64
  | .uint _ => .u64
  | .float _ => .f64
  | .bool _ => .bool
  | .string _ => .string
  | .nil => .nil
  | .tuple items => .tuple (typesOf items)
  | .list items => .list ((Ty.union? (typesOf items)).getD .any)
  | .record tag _ => .record tag
  | .key _ _ => .symbolicKey
  | .type _ => .typeType

def typesOf : List Constant → List Ty
  | [] => []
  | c :: cs => typeOf c :: typesOf cs

end

/-- Whether an integer is in the range of a width and signedness, or nothing if a number on the
way there is out of its own range.  Every 64-bit constant is in range from 127 bits on, so wider
types need no larger powers. -/
def inRange? (v : Wide) (signed : Bool) (bits : UInt8) : Option Bool := do
  if bits = 0 then return false
  let bits := (min bits 127).toUInt32
  if signed then
    let half ← Wide.bit? (← lower? bits)
    let least ← half.negated?
    return least.sle v && v.slt half
  if v.slt 0 then return false
  if bits = 127 then return true
  return v.slt (← Wide.bit? bits)

/-- Whether an integer is in the range of a width and signedness. -/
def inRange (v : Wide) (signed : Bool) (bits : UInt8) : Bool :=
  (inRange? v signed bits).getD false

mutual

/-- Whether a scalar of the given type may hold a constant: an integer has to lie in the range of
the type, a float fits every width, and a union takes what one of its members takes. -/
def fits (c : Constant) : Ty → Bool
  | .any => true
  | .union members => fitsSome c members
  | .int bits =>
    match c with
    | .int n => inRange (.ofInt64 n) true bits
    | .uint n => inRange (.ofUInt64 n) true bits
    | _ => false
  | .uint bits =>
    match c with
    | .int n => inRange (.ofInt64 n) false bits
    | .uint n => inRange (.ofUInt64 n) false bits
    | _ => false
  | .float _ => match c with | .float _ => true | _ => false
  | .bool => match c with | .bool _ => true | _ => false
  | .string => match c with | .string _ => true | _ => false
  | .nil => match c with | .nil => true | _ => false
  | .symbolicKey => match c with | .key _ _ => true | _ => false
  | .typeType => match c with | .type _ => true | _ => false
  | .tuple ts => match c with | .tuple cs => fitsEach cs ts | _ => false
  | .list t => match c with | .list cs => cs.all (fun c => fits c t) | _ => false
  | .record tag => match c with | .record tag' _ => tag' == tag | _ => false
  | .array _ => false
  | .jtagged _ => false
  | .anyFunction => false
  | .function _ _ => false

/-- Whether a constant fits one of some types. -/
def fitsSome (c : Constant) : List Ty → Bool
  | [] => false
  | t :: ts => fits c t || fitsSome c ts

/-- Whether constants fit types one by one, and there are as many of both. -/
def fitsEach : List Constant → List Ty → Bool
  | [], [] => true
  | c :: cs, t :: ts => fits c t && fitsEach cs ts
  | _, _ => false

end

/-- Numbers and booleans may give way to `ANYTHING` where two different ones meet; other
constants have to agree. -/
def widenable : Constant → Bool
  | .int _ | .uint _ | .float _ | .bool _ => true
  | _ => false

/-- The first field of that name, of a record. -/
def field? (name : String) : Constant → Option Constant
  | .record _ fields => fields.lookup name
  | _ => none

mutual

/-- Text of a constant. -/
def render : Constant → String
  | .int n => toString n.toInt
  | .uint n => toString n.toNat
  | .float bits => Decimal.ofBits bits
  | .bool b => if b then "true" else "false"
  | .string s => Text.quoted s
  | .nil => "nil"
  | .tuple [c] => "(" ++ render c ++ ",)"
  | .tuple items => "(" ++ ", ".intercalate (renderAll items) ++ ")"
  | .list items => "[" ++ ", ".intercalate (renderAll items) ++ "]"
  | .record tag fields => tag ++ "(" ++ ", ".intercalate (renderFields fields) ++ ")"
  | .key node index => "SymbolicKey(" ++ node ++ ", " ++ toString index.toInt ++ ")"
  | .type ty => ty.render

def renderAll : List Constant → List String
  | [] => []
  | c :: cs => render c :: renderAll cs

def renderFields : List (String × Constant) → List String
  | [] => []
  | (name, c) :: fields => (name ++ "=" ++ render c) :: renderFields fields

end

end Constant

end ValueInference
