/-!
# Decimal — floating-point numbers by their written form

A float takes part in this library only through its text and through comparison with integers.
`Decimal` keeps the text; `Decimal.integer?` reads the integer it denotes, if it denotes one.

A float of magnitude `2 ^ 53` or more holds 53 significant bits, while its text gives the fewest
digits that identify it.  So a large whole text is rounded to 53 bits, ties to even.
-/

namespace WireLayout

/-- A floating-point number, given by its text. -/
structure Decimal where
  text : String
  deriving DecidableEq, Repr, Inhabited

namespace Decimal

/-- Rounds a natural number to `bits` significant bits; a tie goes to the even neighbour. -/
def roundToBits (bits n : Nat) : Nat :=
  let excess := n.log2 + 1 - bits
  let unit := Nat.pow 2 excess
  let q := n / unit
  let r := n % unit
  if 2 * r > unit || (2 * r == unit && q % 2 == 1) then (q + 1) * unit else q * unit

/-- The number that a run of decimal digits denotes. -/
def digits? (cs : List Char) : Option Nat :=
  if cs.all Char.isDigit then some (cs.foldl (fun n c => 10 * n + (c.toNat - 48)) 0) else none

/-- A signed exponent such as `+16` or `-05`. -/
def exponent? : List Char → Option Int
  | '-' :: cs => (digits? cs).map fun n => -(n : Int)
  | '+' :: cs => (digits? cs).map Int.ofNat
  | cs => (digits? cs).map Int.ofNat

/-- Splits a list at the first element equal to `c`, which is dropped. -/
def splitAtChar (c : Char) (cs : List Char) : List Char × List Char :=
  (cs.takeWhile (· != c), (cs.dropWhile (· != c)).drop 1)

/-- The whole number `m * 10 ^ e`, if it is whole and the exponent is one that floats can have. -/
def whole? (m : Nat) (e : Int) : Option Nat :=
  if e > 400 then none
  else if 0 ≤ e then some (m * Nat.pow 10 e.toNat)
  else if m == 0 then some 0
  else if e < -400 then none
  else if m % Nat.pow 10 (-e).toNat == 0 then some (m / Nat.pow 10 (-e).toNat) else none

/-- The whole number that an unsigned text denotes, if it denotes one. -/
def magnitude? (cs : List Char) : Option Nat := do
  let (mantissa, expo) := splitAtChar 'e' cs
  let (intPart, fracPart) := splitAtChar '.' mantissa
  if intPart.isEmpty then none
  let m ← digits? (intPart ++ fracPart)
  let e ← if expo.isEmpty then some 0 else exponent? expo
  let n ← whole? m (e - fracPart.length)
  return if n < Nat.pow 2 53 then n else roundToBits 53 n

/-- The integer that the float equals, if there is one. -/
def integer? (d : Decimal) : Option Int :=
  match d.text.toList with
  | '-' :: cs => (magnitude? cs).map fun n => -(n : Int)
  | cs => (magnitude? cs).map Int.ofNat

/-- Equality of floats: the two zeros are equal, and `nan` differs from everything. -/
def same (a b : Decimal) : Bool :=
  (a.text == b.text && a.text != "nan") || (a.integer?.isSome && a.integer? == b.integer?)

end Decimal

end WireLayout
