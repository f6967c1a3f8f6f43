/-
Concrete types: what the TYPE track of a scalar holds and what an abstract value projects onto.

* **`Ty.compare`** — the order of types, by constructor first and by fields after that;
* **`Ty.compare_eq_iff`** — two types compare as equal exactly when they are equal, so the order
  also decides equality;
* **`Ty.union?`** — the canonical union of a list of types: flattened once, sorted, without
  repetition, and never a union of fewer than two members.
-/

namespace ValueInference

/-- Concrete types.  The members of a `union` are strictly ascending in `Ty.compare`; the
builders below keep that, so that equal sets of types are equal types. -/
inductive Ty where
  /-- Signed integers of the given width in bits. -/
  | int (bits : UInt8)
  /-- Unsigned integers of the given width in bits. -/
  | uint (bits : UInt8)
  /-- Floating point numbers of the given width in bits. -/
  | float (bits : UInt8)
  | bool
  | nil
  | string
  /-- Keys into gradient environments. -/
  | symbolicKey
  /-- The type of types. -/
  | typeType
  /-- Unknown type: what two different types relax to. -/
  | any
  | tuple (items : List Ty)
  | list (item : Ty)
  | array (item : Ty)
  /-- Records, known by their tag alone. -/
  | record (tag : String)
  | jtagged (inner : Ty)
  /-- Functions whose signature is not known. -/
  | anyFunction
  | function (args : List Ty) (result : Ty)
  | union (members : List Ty)
deriving Inhabited

/-- Argument and result types of a function. -/
structure Signature where
  args : List Ty
  result : Ty

namespace Ty

def i64 : Ty := .int 64
def u64 : Ty := .uint 64
def f64 : Ty := .float 64

/-- The function type with this signature, or the generic one if there is none. -/
def ofSignature? : Option Signature → Ty
  | none => .anyFunction
  | some s => .function s.args s.result

/-- Place of the constructor in the order of types. -/
def rank : Ty → Nat
  | .int _ => 0
  | .uint _ => 1
  | .float _ => 2
  | .bool => 3
  | .nil => 4
  | .string => 5
  | .symbolicKey => 6
  | .typeType => 7
  | .any => 8
  | .tuple _ => 9
  | .list _ => 10
  | .array _ => 11
  | .record _ => 12
  | .jtagged _ => 13
  | .anyFunction => 14
  | .function _ _ => 15
  | .union _ => 16

mutual

/-- The order of types: by constructor, then field by field, lists from the left. -/
def compare : Ty → Ty → Ordering
  | .int a, .int b => Ord.compare a b
  | .uint a, .uint b => Ord.compare a b
  | .float a, .float b => Ord.compare a b
  | .tuple as, .tuple bs => compareList as bs
  | .list a, .list b => compare a b
  | .array a, .array b => compare a b
  | .record a, .record b => Ord.compare a b
  | .jtagged a, .jtagged b => compare a b
  | .function as a, .function bs b => (compareList as bs).then (compare a b)
  | .union as, .union bs => compareList as bs
  | a, b => Ord.compare a.rank b.rank

/-- Lexicographic order of lists of types; a proper start of a list comes before it. -/
def compareList : List Ty → List Ty → Ordering
  | [], [] => .eq
  | [], _ :: _ => .lt
  | _ :: _, [] => .gt
  | a :: as, b :: bs => (compare a b).then (compareList as bs)

end

mutual

theorem compare_eq_iff (a b : Ty) : compare a b = .eq ↔ a = b := by
  cases a <;> cases b <;>
    simp [compare, rank, compareList_eq_iff, compare_eq_iff, Ordering.then_eq_eq]

theorem compareList_eq_iff (as bs : List Ty) : compareList as bs = .eq ↔ as = bs := by
  cases as <;> cases bs <;>
    simp [compareList, compareList_eq_iff, compare_eq_iff, Ordering.then_eq_eq]

end

instance : Ord Ty := ⟨compare⟩

instance : DecidableEq Ty := fun a b => decidable_of_iff _ (compare_eq_iff a b)

/-- Puts a type into its place in an ascending list, unless it is there already. -/
def insert (t : Ty) : List Ty → List Ty
  | [] => [t]
  | u :: us =>
    match compare t u with
    | .lt => t :: u :: us
    | .eq => u :: us
    | .gt => u :: insert t us

/-- The ascending list of the types in a list, without repetition. -/
def sort (ts : List Ty) : List Ty :=
  ts.foldl (fun sorted t => insert t sorted) []

/-- The types a type stands for in a union: the members of a union, else the type itself. -/
def alternatives : Ty → List Ty
  | .union members => members
  | t => [t]

/-- The union of some types: unions among them are opened, repetitions dropped, and a single
type is its own union.  There is no union of no types. -/
def union? (ts : List Ty) : Option Ty :=
  match sort (ts.flatMap alternatives) with
  | [] => none
  | [t] => some t
  | members => some (.union members)

mutual

/-- Text of a type. -/
def render : Ty → String
  | .int bits => s!"Int[{bits.toNat}]"
  | .uint bits => s!"UInt[{bits.toNat}]"
  | .float bits => s!"Float[{bits.toNat}]"
  | .bool => "Bool"
  | .nil => "Nil"
  | .string => "String"
  | .symbolicKey => "SymbolicKeyType"
  | .typeType => "TypeType"
  | .any => "Any"
  | .tuple items => "Tuple[" ++ ", ".intercalate (renderAll items) ++ "]"
  | .list item => "List[" ++ render item ++ "]"
  | .array item => "Array[" ++ render item ++ "]"
  | .record tag => tag
  | .jtagged inner => "JTagged[" ++ render inner ++ "]"
  | .anyFunction => "Function"
  | .function args result =>
    "Function[[" ++ ", ".intercalate (renderAll args) ++ "], " ++ render result ++ "]"
  | .union members => "Union[" ++ ", ".intercalate (renderAll members) ++ "]"

def renderAll : List Ty → List String
  | [] => []
  | t :: ts => render t :: renderAll ts

end

end Ty

deriving instance DecidableEq for Signature

end ValueInference
