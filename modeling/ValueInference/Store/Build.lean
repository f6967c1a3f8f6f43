/-
Building nodes.

A form is checked when it becomes a node, against the nodes below it as they are at that time.  A
form over interned nodes gives the interned node with the same form if there is one.  A form over
nodes with digests gets a digest; over anything else a node may yet turn out to lie on a cycle,
and has none.

* **`Store.fault?`** — what is wrong with a form, if anything;
* **`Store.build`** — the node of a form, with the store that has it;
* **`Store.complete`** — gives a placeholder its form.
-/
import ValueInference.Store.Digest
import ValueInference.Store.Equality
import ValueInference.Store.Render

namespace ValueInference

/-- The first label that occurs a second time. -/
def repeated? {β : Type} [DecidableEq β] : List β → List β → Option β
  | _, [] => none
  | earlier, b :: bs => if b ∈ earlier then some b else repeated? (b :: earlier) bs

namespace Store

/-- What is wrong with the VALUE track of a scalar of this type. -/
def valueFault? (s : Store) (value : Slot) (ty : Ty) : Option Fault :=
  match value with
  | .constant c => if c.fits ty then none else some (.misfit c ty)
  | .possibilities p =>
    p.candidates.findSome? fun
      | .constant c => if c.fits ty then none else some (.candidateMisfit c.render ty)
      | .function f => some (.candidateMisfit (s.renderFunctionRef f) ty)
  | _ => none

/-- What is wrong with the options of a function. -/
def optionsFault? (s : Store) (options : Slot) : Option Fault :=
  match options with
  | .possibilities p =>
    if p.candidates.all fun c => c.function?.isSome then none
    else some (.constantCandidates (s.renderPossibilities p))
  | .constant c => some (.constantFunction c)
  | _ => none

/-- What is wrong with a form. -/
def fault? (s : Store) (k : Kind) : Option Fault :=
  if !s.knows k then some .dangling
  else
    match k with
    | .scalar value ty => s.valueFault? value ty
    | .record tag fields =>
      (repeated? [] (fields.map Prod.fst)).map fun name => .duplicateField name tag
    | .union members =>
      if members.length < 2 then some .smallUnion
      else if members.any fun n => (s.kind n).isUnion then some .nestedUnion
      else none
    | .tagged options =>
      if options.isEmpty then some .noOptions
      else (repeated? [] (options.map Prod.fst)).map .duplicateTag
    | .function options => s.optionsFault? options
    | _ => none

/-- The interned node of a form with this digest. -/
def interned? (s : Store) (digest : Nat) (k : Kind) : Option NodeId :=
  (List.range s.nodes.size).find? fun n =>
    s.isInterned n && s.digest n == some digest && s.equalKinds (s.kind n) k

/-- The number of a form over nodes with digests, and the contents that number it. -/
def digestOf (s : Store) (k : Kind) : Nat × Contents :=
  Contents.number (s.content k) s.contents

/-- Adds a node for a form, or finds the interned node that has it. -/
def place (s : Store) (k : Kind) : NodeId × Store :=
  if k.children.all s.isInterned then
    let (digest, contents) := s.digestOf k
    match s.interned? digest k with
    | some n => (n, s)
    | none =>
      (s.nodes.size, { s with contents, nodes := s.nodes.push ⟨some k, some digest, true⟩ })
  else if k.children.all fun n => (s.digest n).isSome then
    let (digest, contents) := s.digestOf k
    (s.nodes.size, { s with contents, nodes := s.nodes.push ⟨some k, some digest, false⟩ })
  else
    (s.nodes.size, { s with nodes := s.nodes.push ⟨some k, none, false⟩ })

/-- Builds a node, unless something is wrong with its form. -/
def build (s : Store) (k : Kind) : Except Fault NodeId × Store :=
  match s.fault? k with
  | some fault => (.error fault, s)
  | none =>
    let (n, s) := s.place k
    (.ok n, s)

/-- Adds a node that has no form yet. -/
def placeholder (s : Store) : NodeId × Store :=
  (s.nodes.size, { s with nodes := s.nodes.push ⟨none, none, false⟩ })

/-- Gives a node its form.  The form may refer back to the node itself. -/
def complete (s : Store) (n : NodeId) (k : Kind) : Except Fault Unit × Store :=
  match s.fault? k with
  | some fault => (.error fault, s)
  | none =>
    match s.nodes[n]? with
    | none => (.error .dangling, s)
    | some node =>
      if node.kind.isSome then (.error .completedTwice, s)
      else if k.children.all fun n => (s.digest n).isSome then
        let (digest, contents) := s.digestOf k
        (.ok (), { s with contents, nodes := s.nodes.set! n ⟨some k, some digest, false⟩ })
      else
        (.ok (), { s with nodes := s.nodes.set! n ⟨some k, none, false⟩ })

/-- Whether a candidate equals one of some others. -/
def hasCandidate (s : Store) (cs : List Candidate) (c : Candidate) : Bool :=
  cs.any fun d => s.equalCandidates d c

/-- Adds to some candidates those of others that equal none before them. -/
def addCandidates (s : Store) (cs ds : List Candidate) : List Candidate :=
  ds.foldl (fun cs d => if s.hasCandidate cs d then cs else cs ++ [d]) cs

/-- Whether every candidate of the first set is in the second. -/
def isSubset (s : Store) (p q : List Candidate) : Bool :=
  p.all (s.hasCandidate q)

end Store

end ValueInference
