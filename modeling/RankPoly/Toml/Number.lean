import RankPoly.Binary64.Reader
import RankPoly.Toml.Table

namespace RankPoly.Toml

-- The digits of a number, where single underscores may stand between them.
def digits? (isDigit : Char → Bool) : List Char → Option (List Char)
  | [] => none
  | [c] => if isDigit c then some [c] else none
  | c :: '_' :: rest => if isDigit c then (digits? isDigit rest).map (c :: ·) else none
  | c :: rest => if isDigit c then (digits? isDigit rest).map (c :: ·) else none

def digitValue (c : Char) : Nat :=
  if c.isDigit then c.toNat - '0'.toNat else c.toLower.toNat - 'a'.toNat + 10

def numeral (base : Nat) (digits : List Char) : Nat :=
  digits.foldl (fun value digit => value * base + digitValue digit) 0

def isDigitOf (base : Nat) (c : Char) : Bool :=
  (c.isDigit || ('a' ≤ c.toLower && c.toLower ≤ 'f')) && digitValue c < base

-- Integers have 64 bits.
def integer? (value : Int) : Option Item :=
  if -Int.pow 2 63 ≤ value ∧ value < Int.pow 2 63 then some (.integer value) else none

-- The digits of a whole number, without a needless zero in front.
def decimal? (text : List Char) : Option (List Char) :=
  match digits? Char.isDigit text with
  | some ('0' :: _ :: _) => none
  | digits => digits

def isExponent (text : List Char) : Bool :=
  let digits :=
    match text with
    | '-' :: rest | '+' :: rest => rest
    | digits => digits
  (digits? Char.isDigit digits).isSome

-- Whether a fraction and an exponent, at least one of them, follow the whole
-- part of a number.
def isFraction (whole rest : List Char) : Bool :=
  (decimal? whole).isSome &&
    match rest with
    | '.' :: rest =>
      (digits? Char.isDigit (rest.takeWhile fun c => c ≠ 'e' && c ≠ 'E')).isSome &&
        match rest.dropWhile fun c => c ≠ 'e' && c ≠ 'E' with
        | [] => true
        | _ :: exponent => isExponent exponent
    | _ :: exponent => isExponent exponent
    | [] => false

-- A number must not be too large, but it may be too far below zero.
def float? (negative : Bool) (text : List Char) : Option Item :=
  match Binary64.parse? (String.ofList (text.filter (· ≠ '_'))) with
  | some (.infinite _) => if negative then some .other else none
  | some _ => some .other
  | none => none

-- A number behind its sign.
def number? (negative : Bool) (text : List Char) : Option Item :=
  if text = "inf".toList ∨ text = "nan".toList then some .other
  else
    let isWhole (c : Char) : Bool := c ≠ '.' && c ≠ 'e' && c ≠ 'E'
    match text.dropWhile isWhole with
    | [] => do
      let value : Int := numeral 10 (← decimal? text)
      integer? (if negative then -value else value)
    | rest => if isFraction (text.takeWhile isWhole) rest then float? negative text else none

def based? (base : Nat) (text : List Char) : Option Item := do
  integer? (numeral base (← digits? (isDigitOf base) text))

-- A number or a truth value, written as one word.
def word? : List Char → Option Item
  | '0' :: 'x' :: text => based? 16 text
  | '0' :: 'o' :: text => based? 8 text
  | '0' :: 'b' :: text => based? 2 text
  | '+' :: text => number? false text
  | '-' :: text => number? true text
  | text =>
    if text = "true".toList ∨ text = "false".toList then some .other else number? false text

end RankPoly.Toml
