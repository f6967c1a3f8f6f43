/-
Unions of abstract values.

* **`Infer.union`** — the union of some values: unions among them are opened, equal members
  counted once, and a single member is its own union.  Members are ordered by their texts, so the
  order in which they came does not show.
-/
import ValueInference.Update

namespace ValueInference

namespace Store

/-- The members of a union; any other value is its own only member. -/
def members (s : Store) (n : NodeId) : List NodeId :=
  match s.kind n with
  | .union members => members
  | _ => [n]

/-- Adds a value to some members, unless one of them equals it. -/
def addMember (s : Store) (ms : List NodeId) (n : NodeId) : List NodeId :=
  if ms.any fun m => s.equal m n then ms else ms ++ [n]

/-- The distinct members of a union of some values. -/
def distinctMembers (s : Store) (ns : List NodeId) : List NodeId :=
  (ns.flatMap s.members).foldl s.addMember []

/-- Orders members by their texts. -/
def sortMembers (s : Store) (ms : List NodeId) : List NodeId :=
  (stableSort (fun a b => a.1 ≤ b.1) (ms.map fun m => (s.render m, m))).map Prod.snd

end Store

/-- The union of some values. -/
def Infer.union (ns : List NodeId) : Infer NodeId := do
  let s ← Infer.store
  match s.distinctMembers ns with
  | [] => throw (.invalidConstruction .emptyUnion)
  | [m] => return m
  | ms => Infer.make (.union (s.sortMembers ms))

end ValueInference
