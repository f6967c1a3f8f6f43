/-
Structural equality of abstract values.

Two values are compared level by level.  A pair of nodes that is already under comparison is
assumed equal, which is what makes values that contain themselves comparable.  Record fields,
options, union members and candidates are compared as sets: each on the left has to match the
first on the right that it can, and there are as many of both.  A comparison either fails, with
no trace, or returns the pairs that it assumed.

* **`Store.equal`** — structural equality of nodes;
* **`Store.equalSlots`**, **`Store.equalCandidates`**, **`Store.equalRefs`** — of what holds nodes.

Every level adds a pair of nodes to those assumed, so no comparison is deeper than there are
pairs in the store.
-/
import ValueInference.Store.Basic

namespace ValueInference

/-- Pairs of nodes assumed equal during a comparison. -/
abbrev Assumed := List (NodeId × NodeId)

/-- A comparison: the pairs assumed before it give those assumed after it, if it succeeds. -/
abbrev Comparison (α : Type) := α → α → Assumed → Option Assumed

namespace Comparison

variable {α : Type}

/-- Compares two sequences item by item. -/
def each (eq : Comparison α) : Comparison (List α)
  | [], [], seen => some seen
  | a :: as, b :: bs, seen => (eq a b seen).bind (each eq as bs)
  | _, _, _ => none

/-- Matches something with the first of some others that it equals. -/
def some? (eq : Comparison α) (a : α) : List α → Assumed → Option Assumed
  | [], _ => none
  | b :: bs, seen =>
    match eq a b seen with
    | some seen => some seen
    | none => some? eq a bs seen

/-- Matches each of some things with the first of the others that it equals. -/
def cover (eq : Comparison α) : List α → List α → Assumed → Option Assumed
  | [], _, seen => some seen
  | a :: as, bs, seen => (some? eq a bs seen).bind (cover eq as bs)

/-- Compares two sequences as sets. -/
def unordered (eq : Comparison α) : Comparison (List α) := fun as bs seen =>
  if as.length = bs.length then cover eq as bs seen else none

/-- Compares two things that carry labels. -/
def labelled {β : Type} [DecidableEq β] (eq : Comparison α) : Comparison (β × α) :=
  fun (l, a) (l', b) seen => if l = l' then eq a b seen else none

end Comparison

namespace FunctionRef

/-- Compares two function references. -/
def agree (eq : Comparison NodeId) : Comparison FunctionRef
  | .primitive p, .primitive q, seen => if p = q then some seen else none
  | .typed p as a, .typed q bs b, seen =>
    if p = q then (Comparison.each eq as bs seen).bind (eq a b) else none
  | .partialApp f as, .partialApp g bs, seen =>
    (f.agree eq g seen).bind (Comparison.each eq as bs)
  | .virtual as a, .virtual bs b, seen => (Comparison.each eq as bs seen).bind (eq a b)
  | .graph m, .graph n, seen => if m = n then some seen else none
  | _, _, _ => none

end FunctionRef

/-- Compares two candidates. -/
def Candidate.agree (eq : Comparison NodeId) : Comparison Candidate
  | .constant c, .constant d, seen => if c = d then some seen else none
  | .function f, .function g, seen => f.agree eq g seen
  | _, _, _ => none

/-- Compares two possibility sets; a set equals itself without a look inside. -/
def Possibilities.agree (eq : Comparison NodeId) : Comparison Possibilities := fun p q seen =>
  if p.token = q.token then some seen
  else Comparison.unordered (Candidate.agree eq) p.candidates q.candidates seen

/-- Compares two slots; pendings are equal only to themselves. -/
def Slot.agree (eq : Comparison NodeId) : Comparison Slot
  | .constant c, .constant d, seen => if c = d then some seen else none
  | .anything, .anything, seen => some seen
  | .possibilities p, .possibilities q, seen => p.agree eq q seen
  | .pending p, .pending q, seen => if p = q then some seen else none
  | _, _, _ => none

/-- Compares two forms. -/
def Kind.agree (eq : Comparison NodeId) : Comparison Kind
  | .scalar v t, .scalar w u, seen => if t = u then v.agree eq w seen else none
  | .tuple as, .tuple bs, seen => Comparison.each eq as bs seen
  | .list a, .list b, seen => eq a b seen
  | .array a shape, .array b shape', seen => if shape = shape' then eq a b seen else none
  | .record tag fs, .record tag' gs, seen =>
    if tag = tag' then Comparison.unordered (Comparison.labelled eq) fs gs seen else none
  | .union as, .union bs, seen => Comparison.unordered eq as bs seen
  | .tagged as, .tagged bs, seen => Comparison.unordered (Comparison.labelled eq) as bs seen
  | .function v, .function w, seen => v.agree eq w seen
  | .jtagged a, .jtagged b, seen => eq a b seen
  | .error r, .error r', seen => if r = r' then some seen else none
  | .type t, .type u, seen => if t = u then some seen else none
  | _, _, _ => none

/-- A pair of nodes is found in a list of pairs by comparing both of its nodes. -/
instance : LawfulBEq (NodeId × NodeId) := inferInstance

namespace Store

/-- Compares two nodes to a depth of at most `fuel`.  Nodes with different digests differ, and
so do two interned nodes that are not the same. -/
def agree (s : Store) : Nat → Comparison NodeId
  | 0, _, _, _ => none
  | fuel + 1, a, b, seen =>
    if a = b then some seen
    else if (s.digest a).isSome && (s.digest b).isSome && s.digest a != s.digest b then none
    else if s.isInterned a && s.isInterned b then none
    else if (a, b) ∈ seen then some seen
    else Kind.agree (s.agree fuel) (s.kind a) (s.kind b) ((a, b) :: seen)

/-- No comparison is deeper than there are pairs of nodes. -/
def compareDepth (s : Store) : Nat := s.nodes.size * s.nodes.size + 1

/-- Structural equality of nodes. -/
def equal (s : Store) (a b : NodeId) : Bool :=
  (s.agree s.compareDepth a b []).isSome

def equalKinds (s : Store) (a b : Kind) : Bool :=
  (Kind.agree (s.agree s.compareDepth) a b []).isSome

def equalSlots (s : Store) (a b : Slot) : Bool :=
  (Slot.agree (s.agree s.compareDepth) a b []).isSome

def equalPossibilities (s : Store) (a b : Possibilities) : Bool :=
  (Possibilities.agree (s.agree s.compareDepth) a b []).isSome

def equalCandidates (s : Store) (a b : Candidate) : Bool :=
  (Candidate.agree (s.agree s.compareDepth) a b []).isSome

def equalRefs (s : Store) (a b : FunctionRef) : Bool :=
  (FunctionRef.agree (s.agree s.compareDepth) a b []).isSome

end Store

end ValueInference
