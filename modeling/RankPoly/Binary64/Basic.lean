namespace RankPoly

-- A binary floating point number of 64 bits. A finite one has the magnitude
-- `significand * 2 ^ scale / 2 ^ 1074`, where the significand has at most 53
-- bits, and exactly 53 if the scale is not 0.
inductive Binary64 where
  | nan
  | infinite (negative : Bool)
  | finite (negative : Bool) (significand scale : Nat)
  deriving DecidableEq, Repr

namespace Binary64

-- All magnitudes are counted in the smallest positive one.
def units : Nat := Nat.pow 2 1074

def largestScale : Nat := 2045

def zero (negative : Bool) : Binary64 :=
  .finite negative 0 0

-- The integer nearest to a quotient, the even one of two equally near.
def roundEven (num den : Nat) : Nat :=
  let below := num / den
  let rest := num % den
  if 2 * rest < den ∨ (2 * rest = den ∧ below % 2 = 0) then below else below + 1

-- The number nearest to a quotient. From halfway between the largest finite
-- number and the next power of two on it is infinite.
def nearest (negative : Bool) (num den : Nat) : Binary64 :=
  let magnitude := num * units / den
  let scale := magnitude.log2 - 52
  let significand := roundEven (num * units) (den * Nat.pow 2 scale)
  let (significand, scale) :=
    if significand = Nat.pow 2 53 then (Nat.pow 2 52, scale + 1) else (significand, scale)
  if largestScale < scale then .infinite negative else .finite negative significand scale

-- Numbers as a comparison sees them: not a number is one value, and so are
-- both zeros.
def same : Binary64 → Binary64 → Bool
  | .finite _ 0 _, .finite _ 0 _ => true
  | lhs, rhs => lhs = rhs

end Binary64

end RankPoly
