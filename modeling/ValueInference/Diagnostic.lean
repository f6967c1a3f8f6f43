/-
Where an inference lost precision.  Diagnostics are collected only while collection is enabled.
-/

namespace ValueInference

/-- Why an inference lost precision. -/
inductive Diagnostic where
  /-- Two different constants, given by their texts, became `ANYTHING`. -/
  | widened (left right : String)
  /-- Two different types, given by their texts, became `Any`. -/
  | typeWidened (left right : String)
  /-- A possibility set of this size was too large to keep. -/
  | tooLarge (size : Nat)
  /-- A loop forced a pending because nothing else could go on. -/
  | forced (pending : Nat) (priority : Option Int)
  /-- A loop gave up with these pendings still open. -/
  | deadlock (blocked : List Nat)
deriving DecidableEq

def Diagnostic.render : Diagnostic → String
  | .widened left right => "inference: values " ++ left ++ " and " ++ right ++
      " widened to ANYTHING"
  | .typeWidened left right => "inference: types " ++ left ++ " and " ++ right ++
      " widened to Any"
  | .tooLarge size =>
    s!"inference: possibility set has {size} candidates (default max 16)"
  | .forced pending (some priority) =>
    s!"inference: forced pending #{pending} (priority {priority})"
  | .forced pending none => s!"inference: forced pending #{pending} (no priority)"
  | .deadlock blocked =>
    "inference: deadlock: " ++ ", ".intercalate (blocked.map fun id => s!"#{id}")

/-- The diagnostics collected so far, in order. -/
structure Diagnostics where
  enabled : Bool := false
  entries : List Diagnostic := []

namespace Diagnostics

/-- Collects a diagnostic, if collection is enabled. -/
def add (ds : Diagnostics) (d : Diagnostic) : Diagnostics :=
  if ds.enabled then { ds with entries := ds.entries ++ [d] } else ds

end Diagnostics

end ValueInference
