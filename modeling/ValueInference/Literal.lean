/-
Abstract values of literals.

* **`Infer.ofConstant`** — the abstract value of a constant.  A list is described by one element:
  the relaxed merge of its broadened items, which is dead for an empty list.
-/
import ValueInference.Broaden

namespace ValueInference

namespace Infer

mutual

/-- The abstract value of a constant. -/
def ofConstant : Constant → Infer NodeId
  | .tuple items => do tuple (← ofEach items)
  | .list items => do list (← ofItems (← dead) items)
  | .record tag fields => do record tag (← ofFields fields)
  | .type ty => typeValue ty
  | .int n => scalar (.constant (.int n)) (Constant.typeOf (.int n))
  | .uint n => scalar (.constant (.uint n)) (Constant.typeOf (.uint n))
  | .float b => scalar (.constant (.float b)) (Constant.typeOf (.float b))
  | .bool b => scalar (.constant (.bool b)) (Constant.typeOf (.bool b))
  | .string t => scalar (.constant (.string t)) (Constant.typeOf (.string t))
  | .nil => scalar (.constant .nil) (Constant.typeOf .nil)
  | .key node i => scalar (.constant (.key node i)) (Constant.typeOf (.key node i))

/-- The abstract values of some constants. -/
def ofEach : List Constant → Infer (List NodeId)
  | [] => return []
  | c :: cs => return (← ofConstant c) :: (← ofEach cs)

/-- Merges the items of a list into the element that describes those before them. -/
def ofItems (element : NodeId) : List Constant → Infer NodeId
  | [] => return element
  | c :: cs => do
    let item ← broaden (← ofConstant c)
    ofItems (← merge {} false element item) cs

/-- The abstract values of the fields of a record. -/
def ofFields : List (String × Constant) → Infer (List (String × NodeId))
  | [] => return []
  | (name, c) :: fields => return (name, ← ofConstant c) :: (← ofFields fields)

end

end Infer

end ValueInference
