/-
The shortest decimal that reads back as a given binary floating point number.

A finite double `m · 2^q` stands for every real number that rounds to it: its *cell*.  Among the
decimals of `n` digits next to the number, `shortest` looks for one inside the cell, for
`n = 1, 2, …, 17`, in exact arithmetic on natural numbers; the first `n` that has one wins.  Of
two the nearer is taken, and of two equally near the larger.
-/

namespace ValueInference.Decimal

/-- The positive decimal number `digits · 10^exponent`. -/
structure Scientific where
  digits : Nat
  exponent : Int
deriving DecidableEq, Repr

/-- The real numbers that round to one double: the fractions from `low / den` to `high / den`
around the double itself, `mid / den`.  The ends belong to the cell if it is `closed`. -/
structure Cell where
  den : Nat
  low : Nat
  mid : Nat
  high : Nat
  closed : Bool
deriving DecidableEq, Repr

/-- The cell of the double whose magnitude has the given bits (the sign bit is clear).  Below a
power of two the doubles lie twice as dense, except at the bottom of the range. -/
def Cell.ofMagnitude (bits : Nat) : Cell :=
  let fraction := bits % Nat.pow 2 52
  let biased := bits / Nat.pow 2 52
  let m := if biased = 0 then fraction else fraction + Nat.pow 2 52
  -- the number is `4 * m` quarters of a unit `2^(e - 1074)`
  let e := biased - 1
  let below := if fraction = 0 && 1 < biased then 1 else 2
  let scale := Nat.pow 2 e
  { den := Nat.pow 2 1076
    low := (4 * m - below) * scale
    mid := 4 * m * scale
    high := (4 * m + 2) * scale
    closed := m % 2 == 0 }

/-- The exponent `e` with `10^e ≤ mid / den < 10^(e + 1)`, for a positive number. -/
def Cell.magnitude (c : Cell) : Int :=
  if c.den ≤ c.mid then
    ((Nat.toDigits 10 (c.mid / c.den)).length : Int) - 1
  else
    -(((Nat.toDigits 10 ((c.den - 1) / c.mid)).length : Int))

/-- Both sides of a comparison of `n · 10^t` with fractions over `den`: the factor of `n` and the
factor of the numerators. -/
def Cell.factors (c : Cell) (t : Int) : Nat × Nat :=
  (c.den * Nat.pow 10 t.toNat, Nat.pow 10 (-t).toNat)

/-- Whether `n · 10^t` lies in the cell. -/
def Cell.holds (c : Cell) (t : Int) (n : Nat) : Bool :=
  let (f, g) := c.factors t
  if c.closed then c.low * g ≤ n * f && n * f ≤ c.high * g
  else c.low * g < n * f && n * f < c.high * g

/-- The decimal of the grid of width `10^t` that stands for the cell, if one lies in it: of the
two neighbours of the number the nearer, the larger one on a tie. -/
def Cell.onGrid? (c : Cell) (t : Int) : Option Scientific :=
  let (f, g) := c.factors t
  let n := c.mid * g / f
  let rest := c.mid * g % f
  match c.holds t n && n != 0, c.holds t (n + 1) with
  | true, true => some ⟨if 2 * rest < f then n else n + 1, t⟩
  | true, false => some ⟨n, t⟩
  | false, true => some ⟨n + 1, t⟩
  | false, false => none

/-- Drops the zeros at the end of the digits, at most `fuel` of them. -/
def Scientific.trim : Nat → Scientific → Scientific
  | 0, s => s
  | fuel + 1, s =>
    if s.digits % 10 = 0 ∧ s.digits ≠ 0 then trim fuel ⟨s.digits / 10, s.exponent + 1⟩ else s

/-- The shortest decimal in the cell of a positive number. -/
def Cell.shortest (c : Cell) : Scientific :=
  let e := c.magnitude
  let found := (List.range 17).findSome? fun (n : Nat) => c.onGrid? (e - n)
  (found.getD ⟨0, 0⟩).trim 18

end ValueInference.Decimal
