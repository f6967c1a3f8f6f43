/-
Texts that show how things are made up, where the canonical text shows what they stand for: the
constructors of constants and types, the chain of slots behind a pending, the counters of a loop.

* **`Store.inspectPending`** — a pending with what it was resolved to, link by link;
* **`Store.inspectLoop`** — the limits and the counters of a loop.
-/
import ValueInference.Schedule.Machine

namespace ValueInference

/-- Text between braces. -/
def braced (text : String) : String := "\x7b" ++ text ++ "\x7d"

mutual

/-- A type with its constructors. -/
def Ty.inspect : Ty → String
  | .int bits => s!"Int({bits.toNat})"
  | .uint bits => s!"UInt({bits.toNat})"
  | .float bits => s!"Float({bits.toNat})"
  | .bool => "Bool"
  | .nil => "Nil"
  | .string => "String"
  | .symbolicKey => "SymbolicKey"
  | .typeType => "TypeType"
  | .any => "Any"
  | .tuple items => "Tuple([" ++ ", ".intercalate (Ty.inspectAll items) ++ "])"
  | .list item => "List(" ++ item.inspect ++ ")"
  | .array item => "Array(" ++ item.inspect ++ ")"
  | .record tag => "Class(" ++ Text.quoted tag ++ ")"
  | .jtagged inner => "JTagged(" ++ inner.inspect ++ ")"
  | .anyFunction => "Function(None)"
  | .function args result =>
    "Function(Some(FunctionSig " ++
      braced (" args: [" ++ ", ".intercalate (Ty.inspectAll args) ++ "], ret: " ++
        result.inspect ++ " ") ++ "))"
  | .union members => "Union(" ++ braced (", ".intercalate (Ty.inspectAll members)) ++ ")"

def Ty.inspectAll : List Ty → List String
  | [] => []
  | t :: ts => t.inspect :: Ty.inspectAll ts

end

mutual

/-- A constant with its constructors. -/
def Constant.inspect : Constant → String
  | .int n => s!"Int({n.toInt})"
  | .uint n => s!"UInt({n.toNat})"
  | .float bits => "Float(" ++ Decimal.ofBits bits ++ ")"
  | .bool b => if b then "Bool(true)" else "Bool(false)"
  | .string s => "Str(" ++ Text.quoted s ++ ")"
  | .nil => "Nil"
  | .tuple items => "Tuple([" ++ ", ".intercalate (Constant.inspectAll items) ++ "])"
  | .list items => "List([" ++ ", ".intercalate (Constant.inspectAll items) ++ "])"
  | .record tag fields =>
    "Record(Record " ++
      braced (" tag: " ++ Text.quoted tag ++ ", fields: [" ++
        ", ".intercalate (Constant.inspectFields fields) ++ "] ") ++ ")"
  | .key node index =>
    "SymbolicKey(SymbolicKey " ++
      braced (" node: " ++ Text.quoted node ++ s!", index: {index.toInt} ") ++ ")"
  | .type ty => "Type(" ++ ty.inspect ++ ")"

def Constant.inspectAll : List Constant → List String
  | [] => []
  | c :: cs => c.inspect :: Constant.inspectAll cs

def Constant.inspectFields : List (String × Constant) → List String
  | [] => []
  | (name, c) :: fields =>
    ("(" ++ Text.quoted name ++ ", " ++ c.inspect ++ ")") :: Constant.inspectFields fields

end

namespace Store

/-- A pending and what it was resolved to, through at most `fuel` links. -/
def inspectPendingWithin (s : Store) : Nat → PendingId → String
  | 0, p => s!"Pending#{s.pendingNumber p}"
  | fuel + 1, p =>
    let name := s!"Pending#{s.pendingNumber p}"
    match s.pendingStatus p with
    | .unresolved => name
    | .resolving => name ++ "(resolving)"
    | .failed e => name ++ "(failed: " ++ s.message e ++ ")"
    | .resolved slot =>
      let text :=
        match slot with
        | .constant c => "Value(" ++ c.inspect ++ ")"
        | .anything => "Anything"
        | .possibilities p => "Possibilities(" ++ s.renderPossibilities p ++ ")"
        | .pending q => "Pending(" ++ s.inspectPendingWithin fuel q ++ ")"
      name ++ "(" ++ text ++ ")"

def inspectPending (s : Store) (p : PendingId) : String :=
  s.inspectPendingWithin (s.pendings.size + 1) p

def inspectLoop (s : Store) (l : LoopId) : String :=
  let loop := s.loop l
  "InferenceLoop " ++
    braced (" config: InferenceConfig " ++
      braced (s!" max_possibilities: {loop.config.maxPossibilities}, " ++
        s!"max_forced_resolutions: {loop.config.maxForced} ") ++
      s!", tasks: {loop.tasks.length}, pendings: {loop.pendings.length}, " ++
      s!"forced: {loop.forced} ")

end Store

/-- The sizes of what a walk remembers, under a title. -/
def Memo.inspect (memo : Memo) (title : String) : String :=
  title ++ " " ++
    braced (s!" done: {memo.done.length}, in_progress: {memo.inProgress.length} ")

end ValueInference
