import RankPoly.Binary64.Shortest

namespace RankPoly.Binary64

def zeros (count : Nat) : String :=
  String.ofList (List.replicate count '0')

namespace Decimal

-- The exponent of the first digit.
def leading (decimal : Decimal) : Int :=
  decimal.exponent + (Nat.toDigits 10 decimal.digits).length - 1

-- All digits in their places. A whole number ends in `suffix`.
def positional (decimal : Decimal) (suffix : String) : String :=
  let digits := Nat.toDigits 10 decimal.digits
  match decimal.exponent with
  | .ofNat count => String.ofList digits ++ zeros count ++ suffix
  | .negSucc count =>
    let places := count + 1
    if places < digits.length then
      String.ofList (digits.take (digits.length - places)) ++ "." ++
        String.ofList (digits.drop (digits.length - places))
    else "0." ++ zeros (places - digits.length) ++ String.ofList digits

-- One digit, the other digits behind a point, and the exponent of the first.
def scientific (decimal : Decimal) : String :=
  let exponent := "e" ++ toString decimal.leading
  match Nat.toDigits 10 decimal.digits with
  | [] => exponent
  | [digit] => String.ofList [digit] ++ exponent
  | digit :: others => String.ofList (digit :: '.' :: others) ++ exponent

end Decimal

def withSign (negative : Bool) (magnitude : String) : String :=
  if negative then "-" ++ magnitude else magnitude

-- A literal: whole numbers end in `.0`, and from 10 ^ 16 on and below
-- 10 ^ -4 it has an exponent.
def render : Binary64 → String
  | .nan => "NaN"
  | .infinite negative => withSign negative "inf"
  | .finite negative significand scale =>
    let decimal := shortest significand scale
    withSign negative <|
      if significand = 0 ∨ (-4 ≤ decimal.leading ∧ decimal.leading < 16) then
        decimal.positional ".0"
      else decimal.scientific

-- All digits in their places, whole numbers without a point.
def renderPlain : Binary64 → String
  | .nan => "NaN"
  | .infinite negative => withSign negative "inf"
  | .finite negative significand scale =>
    withSign negative ((shortest significand scale).positional "")

end RankPoly.Binary64
