/-
Limits of an inference: how many candidates a relaxed merge keeps, and how many pendings a loop
may force.  The limits can be overridden one by one from named variables.

* **`Config.override`** — the limits after the overrides, or what is wrong with them;
* **`parseLimit`** — a decimal number of at most 64 bits.
-/
import ValueInference.Text.Quoted

namespace ValueInference

structure Config where
  /-- Largest set of constants that a relaxed merge produces; beyond it the VALUE is given up. -/
  maxPossibilities : Nat := 16
  /-- How many pendings a loop may force on its own. -/
  maxForced : Nat := 10000
deriving DecidableEq

/-- What is wrong with the text of a number. -/
inductive NumberFault where
  | empty
  | digit
  | overflow
deriving DecidableEq

def NumberFault.message : NumberFault → String
  | .empty => "cannot parse integer from empty string"
  | .digit => "invalid digit found in string"
  | .overflow => "number too large to fit in target type"

/-- What is wrong with a configuration. -/
inductive ConfigFault where
  /-- No possibility at all would be allowed. -/
  | noPossibilities
  /-- A variable holds something else than a limit. -/
  | badOverride (name raw : String) (fault : NumberFault)
  /-- A settings text cannot be read. -/
  | badSettings
deriving DecidableEq

def ConfigFault.message : ConfigFault → String
  | .noPossibilities => "max_possibilities must be at least 1"
  | .badOverride name raw fault => name ++ "=" ++ Text.quoted raw ++ ": " ++ fault.message
  | .badSettings => "unreadable settings"

/-- The characters that may surround a limit: the white space of Unicode. -/
def isBlank (c : Char) : Bool :=
  let n := c.toNat
  (0x09 ≤ n && n ≤ 0x0d) || n == 0x20 || n == 0x85 || n == 0xa0 || n == 0x1680 ||
    (0x2000 ≤ n && n ≤ 0x200a) || n == 0x2028 || n == 0x2029 || n == 0x202f || n == 0x205f ||
    n == 0x3000

/-- Bound of the limits: they are numbers of 64 bits. -/
def limitBound : Nat := Nat.pow 2 64

/-- Reads digits after a number read so far.  The first character that is no digit, or that
makes the number too large, decides the fault. -/
def parseDigits : Nat → List Char → Except NumberFault Nat
  | n, [] => .ok n
  | n, c :: cs =>
    if c.isDigit then
      let m := 10 * n + (c.toNat - '0'.toNat)
      if m < limitBound then parseDigits m cs else .error .overflow
    else .error .digit

/-- Reads a limit: decimal digits, with an optional plus sign. -/
def parseLimit : List Char → Except NumberFault Nat
  | [] => .error .empty
  | ['+'] => .error .digit
  | '+' :: cs => parseDigits 0 cs
  | cs => parseDigits 0 cs

/-- A text without the blanks around it. -/
def trimBlanks (cs : List Char) : List Char :=
  ((cs.dropWhile isBlank).reverse.dropWhile isBlank).reverse

namespace Config

/-- The variables that override the limits. -/
def possibilitiesVariable : String := "SUBSET_ABSTRACT_MAX_POSSIBILITIES"

def forcedVariable : String := "SUBSET_ABSTRACT_MAX_FORCED"

/-- Accepts a configuration that allows some possibility. -/
def validate (c : Config) : Except ConfigFault Config :=
  if c.maxPossibilities = 0 then .error .noPossibilities else .ok c

/-- The limit that a variable gives, if it is set. -/
def readVariable (environment : String → Option String) (name : String) :
    Except ConfigFault (Option Nat) :=
  match environment name with
  | none => .ok none
  | some raw =>
    match parseLimit (trimBlanks raw.toList) with
    | .ok n => .ok (some n)
    | .error fault => .error (.badOverride name raw fault)

/-- Overrides the limits by variables; the possibilities are read first. -/
def override (c : Config) (environment : String → Option String) : Except ConfigFault Config := do
  let possibilities ← readVariable environment possibilitiesVariable
  let forced ← readVariable environment forcedVariable
  validate ⟨possibilities.getD c.maxPossibilities, forced.getD c.maxForced⟩

end Config

end ValueInference
