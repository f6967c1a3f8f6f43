/-
Quoted text: a string between double quotes, on one line and in printable characters only.
-/
import ValueInference.Text.Unprintable

namespace ValueInference.Text

/-- The hexadecimal number of a character between braces. -/
def codeEscape (c : Char) : String :=
  "\\u\x7b" ++ String.ofList (Nat.toDigits 16 c.toNat) ++ "\x7d"

/-- How a character is written inside double quotes. -/
def quoteChar (c : Char) : String :=
  if c = '\x00' then "\\0"
  else if c = '\t' then "\\t"
  else if c = '\r' then "\\r"
  else if c = '\n' then "\\n"
  else if c = '"' then "\\\""
  else if c = '\\' then "\\\\"
  else if unprintable c then codeEscape c
  else c.toString

/-- A string as quoted text. -/
def quoted (s : String) : String :=
  "\"" ++ s.foldl (fun out c => out ++ quoteChar c) "" ++ "\""

end ValueInference.Text
