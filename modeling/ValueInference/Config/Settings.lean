/-
Limits from a settings text in TOML: lines of the form `key = integer`, blank lines and comments.
Integers are decimal, hexadecimal, octal or binary, with underscores between digits.

* **`Config.ofSettings`** — the configuration that a text describes; keys that it leaves out keep
  their defaults, and a text with anything else in it is refused as a whole.
-/
import ValueInference.Config

namespace ValueInference.Settings

def isSpace (c : Char) : Bool := c = ' ' || c = '\t'

def skipSpaces (cs : List Char) : List Char := cs.dropWhile isSpace

def isKeyChar (c : Char) : Bool := c.isAlphanum || c = '_' || c = '-'

/-- Characters that a comment may hold. -/
def isCommentChar (c : Char) : Bool := c = '\t' || (0x20 ≤ c.toNat && c.toNat ≠ 0x7f)

/-- Whether the rest of a line says nothing more: spaces and perhaps a comment. -/
def atEnd (cs : List Char) : Bool :=
  match skipSpaces cs with
  | [] => true
  | '#' :: comment => comment.all isCommentChar
  | _ => false

/-- The value of a digit, of either case; `16` if the character is none. -/
def digitValue (c : Char) : Nat :=
  if c.isDigit then c.toNat - '0'.toNat
  else if 'a' ≤ c ∧ c ≤ 'f' then c.toNat - 'a'.toNat + 10
  else if 'A' ≤ c ∧ c ≤ 'F' then c.toNat - 'A'.toNat + 10
  else 16

/-- The character that a single letter after a backslash stands for. -/
def shortEscape? : Char → Option Char
  | 'b' => some '\x08'
  | 't' => some '\t'
  | 'n' => some '\n'
  | 'f' => some '\x0c'
  | 'r' => some '\r'
  | 'e' => some '\x1b'
  | '"' => some '"'
  | '\\' => some '\\'
  | _ => none

/-- How many digits of a code point follow a letter after a backslash. -/
def codeDigits? : Char → Option Nat
  | 'x' => some 2
  | 'u' => some 4
  | 'U' => some 8
  | _ => none

/-- Where a reader stands between double quotes. -/
inductive Quoting where
  | plain
  /-- After a backslash. -/
  | escape
  /-- Before the last `more + 1` digits of a code point, with the value of those before them. -/
  | code (more value : Nat)

/-- Reads up to the closing double quote; `read` holds the characters before, the last first.
Gives the characters that are meant, and what follows the quote. -/
def readQuoted : Quoting → List Char → List Char → Option (String × List Char)
  | _, _, [] => none
  | .plain, read, c :: cs =>
    if c = '"' then some (String.ofList read.reverse, cs)
    else if c = '\\' then readQuoted .escape read cs
    else if isCommentChar c then readQuoted .plain (c :: read) cs
    else none
  | .escape, read, c :: cs =>
    match shortEscape? c, codeDigits? c with
    | some meant, _ => readQuoted .plain (meant :: read) cs
    | none, some count => readQuoted (.code (count - 1) 0) read cs
    | none, none => none
  | .code more value, read, c :: cs =>
    let value := 16 * value + digitValue c
    if digitValue c = 16 then none
    else
      match more with
      | more + 1 => readQuoted (.code more value) read cs
      | 0 => if value.isValidChar then readQuoted .plain (Char.ofNat value :: read) cs else none

/-- A key, bare or between quotes of either kind, and what follows it.  Only double quotes allow
escapes. -/
def readKey : List Char → Option (String × List Char)
  | '"' :: cs => readQuoted .plain [] cs
  | '\'' :: cs =>
    let (key, rest) := cs.span fun c => c ≠ '\'' && isCommentChar c
    match rest with
    | '\'' :: rest => some (String.ofList key, rest)
    | _ => none
  | cs =>
    match cs.span isKeyChar with
    | ([], _) => none
    | (key, rest) => some (String.ofList key, rest)

/-- Reads digits of a base after a number read so far, `afterDigit` telling whether the last
character was one; an underscore has to stand between two digits. -/
def readDigits (base : Nat) : Bool → Nat → List Char → Option Nat
  | afterDigit, n, [] => if afterDigit then some n else none
  | afterDigit, n, c :: cs =>
    if c = '_' then
      if afterDigit then readDigits base false n cs else none
    else if digitValue c < base then readDigits base true (base * n + digitValue c) cs
    else none

/-- An integer of decimal digits without a leading zero. -/
def readDecimal : List Char → Option Nat
  | ['0'] => some 0
  | '0' :: _ => none
  | cs => readDigits 10 false 0 cs

/-- An integer that is not negative. -/
def readInteger : List Char → Option Nat
  | '+' :: cs => readDecimal cs
  | '-' :: cs => (readDecimal cs).bind fun n => if n = 0 then some 0 else none
  | '0' :: 'x' :: cs => readDigits 16 false 0 cs
  | '0' :: 'o' :: cs => readDigits 8 false 0 cs
  | '0' :: 'b' :: cs => readDigits 2 false 0 cs
  | cs => readDecimal cs

/-- The key and the limit that a line sets. -/
def readEntry (line : List Char) : Option (String × Nat) := do
  let (key, rest) ← readKey (skipSpaces line)
  match skipSpaces rest with
  | '=' :: rest =>
    let (word, rest) := (skipSpaces rest).span fun c => !isSpace c && c ≠ '#'
    let n ← readInteger word
    if atEnd rest && n < limitBound then some (key, n) else none
  | _ => none

/-- Splits a text into lines; a line may end in a carriage return and a line feed. -/
def lines : List Char → List Char → List (List Char)
  | line, [] => [line.reverse]
  | line, '\r' :: '\n' :: cs => line.reverse :: lines [] cs
  | line, '\n' :: cs => line.reverse :: lines [] cs
  | line, c :: cs => lines (c :: line) cs

/-- The entries of the lines that are neither blank nor a comment. -/
def readEntries : List (List Char) → Option (List (String × Nat))
  | [] => some []
  | line :: rest =>
    if atEnd line then readEntries rest
    else do
      let entry ← readEntry line
      let entries ← readEntries rest
      some (entry :: entries)

/-- A text without the mark of its byte order. -/
def dropMark : List Char → List Char
  | '\ufeff' :: cs => cs
  | cs => cs

/-- The entries of a settings text: each key is known and set at most once. -/
def read (text : String) : Option (List (String × Nat)) := do
  let entries ← readEntries (lines [] (dropMark text.toList))
  let keys := entries.map Prod.fst
  if keys.all (fun key => ["max_possibilities", "max_forced_resolutions"].contains key)
      && keys.eraseDups.length = keys.length then some entries
  else none

end Settings

/-- The configuration that a settings text describes. -/
def Config.ofSettings (text : String) : Except ConfigFault Config :=
  match Settings.read text with
  | none => .error .badSettings
  | some entries =>
    let d : Config := {}
    Config.validate
      ⟨(entries.lookup "max_possibilities").getD d.maxPossibilities,
        (entries.lookup "max_forced_resolutions").getD d.maxForced⟩

end ValueInference
