import RankPoly.Binary64.Basic

namespace RankPoly.Binary64

def decimalValue (digits : List Char) : Nat :=
  Nat.ofDigitChars 10 digits 0

-- The number nearest to `value * 10 ^ exponent`. Far outside the range of
-- finite numbers the power is not computed.
def ofDecimal (negative : Bool) (value : Nat) (exponent : Int) : Binary64 :=
  let size := ((Nat.toDigits 10 value).length : Int) + exponent
  if value = 0 ∨ size < -330 then zero negative
  else if 330 < size then .infinite negative
  else
    match exponent with
    | .ofNat power => nearest negative (value * Nat.pow 10 power) 1
    | .negSucc power => nearest negative value (Nat.pow 10 (power + 1))

-- An optional sign. The flag says whether it is a minus.
def splitSign : List Char → Bool × List Char
  | '-' :: rest => (true, rest)
  | '+' :: rest => (false, rest)
  | text => (false, text)

-- The power of ten behind the digits, which may be left out.
def readExponent : List Char → Option Int
  | [] => some 0
  | mark :: rest =>
    if mark = 'e' ∨ mark = 'E' then
      let (negative, digits) := splitSign rest
      if digits.isEmpty || !digits.all Char.isDigit then none
      else some (if negative then -(decimalValue digits : Int) else decimalValue digits)
    else none

-- Decimal digits, with a point before, between or behind them or without one.
def readDecimal (negative : Bool) (text : List Char) : Option Binary64 :=
  let whole := text.takeWhile Char.isDigit
  let rest := text.dropWhile Char.isDigit
  let (fraction, rest) :=
    match rest with
    | '.' :: rest => (rest.takeWhile Char.isDigit, rest.dropWhile Char.isDigit)
    | rest => ([], rest)
  if whole.isEmpty && fraction.isEmpty then none
  else
    (readExponent rest).map fun exponent =>
      ofDecimal negative (decimalValue (whole ++ fraction)) (exponent - fraction.length)

-- Reads a number from its decimal text or its name, in any case of letters.
def parse? (text : String) : Option Binary64 :=
  let (negative, rest) := splitSign text.toList
  let name := String.ofList (rest.map Char.toLower)
  if name = "nan" then some .nan
  else if name = "inf" ∨ name = "infinity" then some (.infinite negative)
  else readDecimal negative rest

end RankPoly.Binary64
