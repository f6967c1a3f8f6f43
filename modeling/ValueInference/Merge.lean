/-
Merging two descriptions of one site.

`merge` reconciles a description that is already known, on the left, with a new one on the right.

* A *relaxed* merge widens to a description that covers both.
* A *forced* merge asks that the left side covers the right one, and gives back the left side.

When nothing changes the result is the left operand itself, so a caller sees by identity that a
description has settled.  Tuple lengths, array shapes, record tags and fields have to agree in
both modes.  Two different numbers or booleans widen to `ANYTHING`; other constants have to agree.
A slot that waits for an open pending is merged later, by a task of the loop.

* **`Infer.mergeTypes`**, **`Infer.mergeSlots`**, **`Infer.mergeSets`** — merges of the parts;
* **`Infer.unionSets`** — union of possibility sets;
* **`Infer.merge`** — merge of abstract values.
-/
import ValueInference.Union

namespace ValueInference

/-- Where a merge takes place: the loop that open pendings are deferred to, if there is one, and
the limits. -/
structure MergeScope where
  loop : Option LoopId := none
  config : Config := {}

/-- The context of merges in a loop, under the loop's limits. -/
def Store.mergeScope (s : Store) (loop : Option LoopId) : MergeScope :=
  { loop, config := ((loop.bind fun l => s.loops[l]?).map LoopState.config).getD {} }

/-- A slot without its constant: what is known and single becomes `ANYTHING`, anything else stays
as it is. -/
def Store.broadenSlot (s : Store) (slot : Slot) : Slot :=
  match s.resolve slot with
  | .constant _ => .anything
  | _ => slot

namespace Infer

/-- A type mismatch between two slots. -/
def slotMismatch {α : Type} (a b : Slot) (reason : Mismatch) : Infer α :=
  throw (.typeMismatch (.slot a) (.slot b) reason)

/-- A type mismatch between two values. -/
def mismatch {α : Type} (a b : NodeId) (reason : Mismatch) : Infer α :=
  throw (.typeMismatch (.value a) (.value b) reason)

/-- Merges two types; different ones relax to `Any`. -/
def mergeTypes (forced : Bool) (a b : Ty) : Infer Ty := do
  if a = b ∨ a = .any then return a
  else if forced then throw (.typeMismatch (.type a) (.type b) .types)
  else
    report (.typeWidened a.render b.render)
    return .any

/-- Puts off the merge of two slots of which one is an open pending.  A task of the loop does it
once both are known, and a new pending stands for its result.  Should the loop force that pending
before, it takes over what is known of the operands, broadened. -/
def deferMerge (scope : MergeScope) (forced : Bool) (a b : Slot) : Infer Slot := do
  match scope.loop with
  | none => throw .unboundPending
  | some l =>
    let s ← store
    let out ← openPending l (some (.operands a b)) (.highest (s.waitsOn a) (s.waitsOn b))
    let _ ← spawn l ⟨a, b, out, forced⟩
    return .pending out

/-- The candidates of a slot that is one of known ones. -/
def candidatesOf (slot : Slot) : List Candidate :=
  match slot with
  | .possibilities p => p.candidates
  | .constant c => [.constant c]
  | _ => []

/-- Merges two slots that are known, of which one is a possibility set. -/
def mergeCandidates (scope : MergeScope) (forced : Bool) (a b ra rb : Slot) : Infer Slot := do
  let s ← store
  let p := candidatesOf ra
  let q := candidatesOf rb
  if s.isSubset q p then return a
  else if forced then slotMismatch ra rb .notSubset
  else if s.isSubset p q then return b
  else
    let union := s.addCandidates p q
    if union.all (fun c => c.constant?.isSome) && scope.config.maxPossibilities < union.length then
      report (.tooLarge union.length)
      return .anything
    else return .possibilities (← possibilities union)

/-- Merges two slots.  The result is the left one itself if nothing changes. -/
def mergeSlots (scope : MergeScope) (forced : Bool) (a b : Slot) : Infer Slot := do
  let s ← store
  let ra := s.resolve a
  let rb := s.resolve b
  match ra, rb with
  | .anything, _ => return a
  | .pending p, .pending q => if p = q then return a else deferMerge scope forced ra rb
  | .pending _, _ => deferMerge scope forced ra rb
  | _, .pending _ => deferMerge scope forced ra rb
  | _, .anything => if forced then slotMismatch ra rb .anythingRight else return .anything
  | .constant c, .constant d =>
    if c = d then return a
    else if forced then slotMismatch ra rb .constants
    else if c.widenable && d.widenable then
      report (.widened c.render d.render)
      return .anything
    else slotMismatch ra rb .notWidenable
  | _, _ => mergeCandidates scope forced a b ra rb

/-- The union of two possibility sets, with the candidates of the left one first. -/
def unionSets (p q : Possibilities) : Infer Possibilities := do
  possibilities ((← store).addCandidates p.candidates q.candidates)

/-- Merges two possibility sets, without a limit. -/
def mergeSets (forced : Bool) (a b : Possibilities) : Infer Possibilities := do
  let s ← store
  if s.isSubset b.candidates a.candidates then return a
  else if forced then slotMismatch (.possibilities a) (.possibilities b) .notSubset
  else if s.isSubset a.candidates b.candidates then return b
  else unionSets a b

/-- Merges items pairwise, from the left. -/
def mergeEach (m : NodeId → NodeId → Infer NodeId) :
    List NodeId → List NodeId → Infer (List NodeId)
  | x :: xs, y :: ys => return (← m x y) :: (← mergeEach m xs ys)
  | _, _ => return []

/-- Merges the fields of a record with those of the same names. -/
def mergeFields (m : NodeId → NodeId → Infer NodeId) (missing : Infer NodeId)
    (others : List (String × NodeId)) :
    List (String × NodeId) → Infer (List (String × NodeId))
  | [] => return []
  | (name, x) :: fields => do
    let merged ←
      match others.lookup name with
      | some y => m x y
      | none => missing
    return (name, merged) :: (← mergeFields m missing others fields)

/-- Replaces the option of a tag. -/
def setOption (tag : UInt32) (n : NodeId) (options : List (UInt32 × NodeId)) :
    List (UInt32 × NodeId) :=
  options.map fun (t, x) => if t = tag then (t, n) else (t, x)

/-- Merges options into those of a tagged union, one after the other; `absent` decides on a tag
that is not among them. -/
def mergeOptions (m : NodeId → NodeId → Infer NodeId) (absent : UInt32 → Infer Unit) :
    List (UInt32 × NodeId) → List (UInt32 × NodeId) → Infer (List (UInt32 × NodeId))
  | options, [] => return options
  | options, (tag, y) :: others => do
    match options.lookup tag with
    | some x => mergeOptions m absent (setOption tag (← m x y) options) others
    | none =>
      absent tag
      mergeOptions m absent (options ++ [(tag, y)]) others

/-- Whether some member takes in another value unchanged.  A trial that fails is no error. -/
def absorbed (trial : NodeId → NodeId → Infer NodeId) (n : NodeId) : List NodeId → Infer Bool
  | [] => return false
  | m :: ms => do
    match ← attempt (trial m n) with
    | .ok merged => if merged = m then return true else absorbed trial n ms
    | .error _ => absorbed trial n ms

/-- Merges members into those of a union, one after the other.  A member that none of them
absorbs is added; `uncovered` decides whether it may be. -/
def mergeMembers (trial : NodeId → NodeId → Infer NodeId) (uncovered : Infer Unit) :
    List NodeId → List NodeId → Infer (List NodeId)
  | ms, [] => return ms
  | ms, n :: ns => do
    if ← absorbed trial n ms then mergeMembers trial uncovered ms ns
    else
      uncovered
      mergeMembers trial uncovered (ms ++ [n]) ns

/-- Merges two different values, given the merge of the values below them.  A union is merged by
trials: forced merges that cannot defer work to a loop. -/
def mergeStep (rec : MergeScope → Bool → NodeId → NodeId → Infer NodeId)
    (scope : MergeScope) (forced : Bool) (a b : NodeId) : Infer NodeId := do
  let s ← store
  match s.kind a, s.kind b with
  | .error .dead, _ => if forced then mismatch a b .deadLeft else return b
  | _, .error .dead => return a
  | .scalar v t, .scalar w u =>
    let ty ← mergeTypes forced t u
    let value ← mergeSlots scope forced v w
    if ty = t ∧ value = v then return a else scalar value ty
  | .tuple xs, .tuple ys =>
    if xs.length ≠ ys.length then mismatch a b .tupleLengths
    else
      let items ← mergeEach (rec scope forced) xs ys
      if items = xs then return a else tuple items
  | .list x, .list y =>
    let item ← rec scope forced x y
    if item = x then return a else list item
  | .array x shape, .array y shape' =>
    if shape ≠ shape' then mismatch a b .arrayShapes
    else
      let item ← rec scope forced x y
      if item = x then return a else array item shape
  | .record tag fs, .record tag' gs =>
    if tag ≠ tag' then mismatch a b .recordTags
    else if fs.length ≠ gs.length ∨ ¬ fs.all (fun f => gs.any fun g => g.1 = f.1) then
      mismatch a b .recordFields
    else
      let fields ← mergeFields (rec scope forced) (mismatch a b .recordFields) gs fs
      if fields = fs then return a else record tag fields
  | .union _, _ | _, .union _ =>
    let ms := s.members a
    let trial := rec { scope with loop := none } true
    let uncovered := if forced then mismatch a b .uncovered else return ()
    let merged ← mergeMembers trial uncovered ms (s.members b)
    if merged.length = ms.length then return a else union merged
  | .tagged xs, .tagged ys =>
    let absent := fun tag => if forced then mismatch a b (.missingTag tag) else return ()
    let options ← mergeOptions (rec scope forced) absent xs ys
    if options = xs then return a else tagged options
  | .function v, .function w =>
    let options ← mergeSlots scope forced v w
    if options = v then return a else function options
  | .jtagged x, .jtagged y =>
    let inner ← rec scope forced x y
    if inner = x then return a else jtagged inner
  | .type _, .type _ => mismatch a b .typeValues
  | .error _, .error _ => mismatch a b .errorReasons
  | _, _ => mismatch a b .kinds

/-- Merges two values to a depth of at most `fuel`. -/
def mergeWithin : Nat → MergeScope → Bool → NodeId → NodeId → Infer NodeId
  | 0, _, _, _, _ => throw .endless
  | fuel + 1, scope, forced, a, b => do
    if a = b ∨ (← store).equal a b then return a
    else mergeStep (mergeWithin fuel) scope forced a b

/-- Merges the right value into the left one.  A merge that settles meets no pair of nodes twice,
neither before its trials nor within them. -/
def merge (scope : MergeScope) (forced : Bool) (a b : NodeId) : Infer NodeId := do
  mergeWithin (2 * (← store).compareDepth) scope forced a b

end Infer

end ValueInference
