import RankPoly.Binary64.Basic

namespace RankPoly.Binary64

-- The numbers `digits * 10 ^ exponent`.
structure Decimal where
  digits : Nat
  exponent : Int

-- The magnitudes that round to a finite number reach from `value - below` to
-- `value + above`, in quarters of the smallest positive magnitude. The ends
-- belong to them if the significand is even.
structure Neighbourhood where
  value : Nat
  below : Nat
  above : Nat
  closed : Bool

-- Below a power of two the next number is only half as far away.
def neighbourhood (significand scale : Nat) : Neighbourhood where
  value := 4 * significand * Nat.pow 2 scale
  below :=
    if significand = Nat.pow 2 52 ∧ 0 < scale then Nat.pow 2 scale else 2 * Nat.pow 2 scale
  above := 2 * Nat.pow 2 scale
  closed := significand % 2 = 0

namespace Neighbourhood

def quarters : Nat := 4 * units

-- The decimal exponent of the first digit of a positive value.
def leadingExponent (around : Neighbourhood) : Int :=
  if quarters ≤ around.value then
    ((Nat.toDigits 10 (around.value / quarters)).length : Int) - 1
  else -((Nat.toDigits 10 (quarters / around.value)).length : Int)

-- Whether `digits * num / den` lies within.
def holds (around : Neighbourhood) (digits num den : Nat) : Bool :=
  let point := digits * num * quarters
  let low := (around.value - around.below) * den
  let high := (around.value + around.above) * den
  if around.closed then low ≤ point && point ≤ high else low < point && point < high

-- The point within that is nearest to the value among the multiples of
-- `10 ^ exponent`, the larger one of two equally near.
def pointOnGrid? (around : Neighbourhood) (exponent : Int) : Option Decimal :=
  let (num, den) :=
    match exponent with
    | .ofNat power => (Nat.pow 10 power, 1)
    | .negSucc power => (1, Nat.pow 10 (power + 1))
  let step := num * quarters
  let lower := around.value * den / step
  let rest := around.value * den % step
  let nearer := if 2 * rest < step then lower else lower + 1
  let farther := if 2 * rest < step then lower + 1 else lower
  if around.holds nearer num den then some ⟨nearer, exponent⟩
  else if around.holds farther num den then some ⟨farther, exponent⟩
  else none

-- The coarsest grid that has a point within, from `exponent` on downwards.
def firstPoint (around : Neighbourhood) : (grids : Nat) → (exponent : Int) → Decimal
  | 0, exponent => ⟨0, exponent⟩
  | grids + 1, exponent =>
    match around.pointOnGrid? exponent with
    | some point => point
    | none => firstPoint around grids (exponent - 1)

end Neighbourhood

-- Trailing zeros of the digits go into the exponent.
def Decimal.trim (decimal : Decimal) : (zeros : Nat) → Decimal
  | 0 => decimal
  | zeros + 1 =>
    if decimal.digits ≠ 0 ∧ decimal.digits % 10 = 0 then
      Decimal.trim ⟨decimal.digits / 10, decimal.exponent + 1⟩ zeros
    else decimal

-- The fewest digits that read back as the number, and the nearest ones of
-- those. Seventeen digits always suffice.
def shortest (significand scale : Nat) : Decimal :=
  if significand = 0 then ⟨0, 0⟩
  else
    let around := neighbourhood significand scale
    (around.firstPoint 17 around.leadingExponent).trim 17

end RankPoly.Binary64
