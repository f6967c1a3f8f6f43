/-
What can go wrong in an inference, by cause.

A description that takes part in a conflict is kept as it is, so its text shows what is known of
it when the error is shown.  Where a reason quotes a text, the text is the one at the time of the
failure.
-/
import ValueInference.Config
import ValueInference.Kind

namespace ValueInference

/-- One side of a failed merge. -/
inductive Conflict where
  | value (node : NodeId)
  | type (ty : Ty)
  | slot (slot : Slot)
deriving DecidableEq

/-- Why two descriptions cannot be merged. -/
inductive Mismatch where
  /-- A live value would have to be covered by a dead one. -/
  | deadLeft
  | tupleLengths
  | arrayShapes
  | recordTags
  | recordFields
  /-- The left tagged union lacks this option. -/
  | missingTag (tag : UInt32)
  /-- The left side covers not every member of the right one. -/
  | uncovered
  | types
  /-- Any value would have to be covered by known ones. -/
  | anythingRight
  | constants
  /-- Two different constants of a kind that never gives way to `ANYTHING`. -/
  | notWidenable
  | notSubset
  | typeValues
  | errorReasons
  | kinds
deriving DecidableEq

def Mismatch.message : Mismatch → String
  | .deadLeft => "cannot force a live value into a dead one"
  | .tupleLengths => "tuple lengths differ"
  | .arrayShapes => "array shapes differ"
  | .recordTags => "record tags differ"
  | .recordFields => "record fields differ"
  | .missingTag tag => s!"tag {tag.toNat} is not an option of the left operand"
  | .uncovered => "union has members the left operand does not cover"
  | .types => "types differ"
  | .anythingRight => "cannot force ANYTHING into a known value"
  | .constants => "values differ"
  | .notWidenable => "constants of this kind cannot be widened"
  | .notSubset => "possibilities are not a subset of the left operand"
  | .typeValues => "type values differ"
  | .errorReasons => "error reasons differ"
  | .kinds => "different kinds of abstract value"

/-- Why a value or a type cannot be read off an abstract value. -/
inductive Indeterminacy where
  | containsItself
  /-- The VALUE track is not a constant but has this text. -/
  | notConstant (text : String)
  | noValue
  | recursiveType
  | errorValue (reason : ErrorReason)
  /-- A candidate with this text is not a function. -/
  | notFunction (text : String)
  | disagreement (first second : Ty)
  | noCandidates
  /-- The candidates are not known; the slot has this text. -/
  | unknownCandidates (text : String)
  /-- More arguments are bound than the function type takes. -/
  | tooManyArguments (count : Nat) (func : Ty)
deriving DecidableEq

def ErrorReason.render : ErrorReason → String
  | .dead => "DEAD"
  | .incomplete => "INCOMPLETE"
  | .custom text => text

def Indeterminacy.message : Indeterminacy → String
  | .containsItself => "value contains itself"
  | .notConstant text => "VALUE is " ++ text
  | .noValue => "no unique concrete value"
  | .recursiveType => "recursive type"
  | .errorValue reason => "error value (" ++ reason.render ++ ") has no type"
  | .notFunction text => text ++ " is not a function"
  | .disagreement first second =>
    "candidates disagree: " ++ first.render ++ " and " ++ second.render
  | .noCandidates => "no candidates"
  | .unknownCandidates text => "candidates are " ++ text
  | .tooManyArguments count func =>
    s!"partial application binds {count} arguments of " ++ func.render

/-- Why something cannot be built. -/
inductive Fault where
  | misfit (value : Constant) (ty : Ty)
  /-- A candidate with this text does not fit the type. -/
  | candidateMisfit (text : String) (ty : Ty)
  | duplicateField (name tag : String)
  /-- A union of fewer than two members. -/
  | smallUnion
  | nestedUnion
  | noOptions
  | duplicateTag (tag : UInt32)
  /-- A function over a possibility set with this text, which holds a constant. -/
  | constantCandidates (text : String)
  | constantFunction (value : Constant)
  | completedTwice
  | emptyUnion
  | emptyTypeUnion
  | emptyPossibilities
  /-- A pending, numbered within its loop, would resolve to itself. -/
  | selfResolution (pending : Nat)
  /-- A form mentions a node or a pending that does not exist. -/
  | dangling
  /-- A client's own reason. -/
  | custom (text : String)
deriving DecidableEq

def Fault.message : Fault → String
  | .misfit value ty => "value " ++ value.render ++ " does not fit type " ++ ty.render
  | .candidateMisfit text ty => "candidate " ++ text ++ " does not fit type " ++ ty.render
  | .duplicateField name tag => "duplicate field '" ++ name ++ "' in record " ++ tag
  | .smallUnion => "a union needs at least two members; use abstract_union"
  | .nestedUnion => "nested union; use abstract_union"
  | .noOptions => "tagged union with no options"
  | .duplicateTag tag => s!"duplicate tag {tag.toNat} in tagged union"
  | .constantCandidates text =>
    "function possibilities must be function references, got " ++ text
  | .constantFunction value => "function abstract value cannot hold constant " ++ value.render
  | .completedTwice => "abstract value completed twice"
  | .emptyUnion => "union of no abstract values"
  | .emptyTypeUnion => "union of no types"
  | .emptyPossibilities => "empty possibility set"
  | .selfResolution pending => s!"pending #{pending} cannot resolve to itself"
  | .dangling => "reference to a value that does not exist"
  | .custom text => text

/-- An error of an inference.  Pendings are numbered within their loops. -/
inductive InferError where
  /-- Two descriptions of one site cannot be reconciled. -/
  | typeMismatch (left right : Conflict) (reason : Mismatch)
  /-- A unique value or type was needed and not found. -/
  | indeterminate (value : NodeId) (reason : Indeterminacy)
  /-- A loop has blocked work and nothing that it may force. -/
  | deadlock (blocked : List Nat)
  /-- A resolver that a loop ran has failed. -/
  | resolverFailed (pending : Nat) (source : InferError)
  | invalidConstruction (fault : Fault)
  /-- A merge met an open pending and has no loop to defer to. -/
  | unboundPending
  | alreadyResolved (pending : Nat)
  | config (fault : ConfigFault)
  /-- A walk over a value that contains itself does not settle. -/
  | endless
deriving DecidableEq, Inhabited

namespace InferError

def isTypeError : InferError → Bool
  | .typeMismatch _ _ _ => true
  | _ => false

def isValueError : InferError → Bool
  | .indeterminate _ _ => true
  | _ => false

/-- Failures of scheduling end a whole run. -/
def isFatalToRun : InferError → Bool
  | .deadlock _ | .resolverFailed _ _ => true
  | _ => false

end InferError

end ValueInference
