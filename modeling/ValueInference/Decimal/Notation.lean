/-
The text of a floating point number: the shortest digits that read back, positional from `10^-4`
up to below `10^16` and in exponent form outside, always with a sign of its own for zero.
-/
import ValueInference.Decimal.Shortest

namespace ValueInference.Decimal

/-- Which decimal exponents of the leading digit are written positionally. -/
structure Positional where
  least : Int
  bound : Int

/-- Numbers from `10^-4` up to below `10^16` are written positionally. -/
def positional : Positional := ⟨-4, 16⟩

def zeros (n : Nat) : String := String.ofList (List.replicate n '0')

namespace Scientific

/-- The decimal exponent of the leading digit. -/
def leading (s : Scientific) : Int :=
  s.exponent + (Nat.toDigits 10 s.digits).length - 1

/-- Positional text with at least one digit on each side of the point. -/
def positionalText (s : Scientific) : String :=
  let digits := Nat.toDigits 10 s.digits
  if 0 ≤ s.exponent then
    String.ofList digits ++ zeros s.exponent.toNat ++ ".0"
  else
    let places := (-s.exponent).toNat
    if digits.length ≤ places then
      "0." ++ zeros (places - digits.length) ++ String.ofList digits
    else
      let whole := digits.length - places
      String.ofList (digits.take whole) ++ "." ++ String.ofList (digits.drop whole)

/-- Exponent form: one digit before the point, the point only if digits follow it. -/
def exponentText (s : Scientific) : String :=
  let e := toString s.leading
  match Nat.toDigits 10 s.digits with
  | [] => "0e" ++ e
  | [d] => d.toString ++ "e" ++ e
  | d :: ds => d.toString ++ "." ++ String.ofList ds ++ "e" ++ e

def text (s : Scientific) : String :=
  if positional.least ≤ s.leading && s.leading < positional.bound then s.positionalText
  else s.exponentText

end Scientific

/-- Text of the double with these bits. -/
def ofBits (bits : UInt64) : String :=
  let negative := Nat.pow 2 63 ≤ bits.toNat
  let magnitude := bits.toNat % Nat.pow 2 63
  let infinite := 2047 * Nat.pow 2 52
  if infinite < magnitude then "NaN"
  else
    let text :=
      if magnitude = infinite then "inf"
      else if magnitude = 0 then "0.0"
      else (Cell.ofMagnitude magnitude).shortest.text
    if negative then "-" ++ text else text

end ValueInference.Decimal
