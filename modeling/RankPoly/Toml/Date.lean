import RankPoly.Toml.Reader

namespace RankPoly.Toml.Date

open Reader

-- A number of exactly `count` digits within bounds.
def field (count low high : Nat) : Reader Nat := do
  let text ← get
  let digits := text.take count
  let value := Nat.ofDigitChars 10 digits 0
  if digits.length = count && digits.all Char.isDigit && low ≤ value && value ≤ high then
    set (text.drop count)
    return value
  else failure

def isLeapYear (year : Nat) : Bool :=
  year % 4 = 0 && (year % 100 ≠ 0 || year % 400 = 0)

def daysIn (year month : Nat) : Nat :=
  if month = 2 then if isLeapYear year then 29 else 28
  else if month ∈ [4, 6, 9, 11] then 30
  else 31

def date : Reader Unit := do
  let year ← field 4 0 9999
  symbol '-'
  let month ← field 2 1 12
  symbol '-'
  let _ ← field 2 1 (daysIn year month)

def fraction : Reader Unit := do
  symbol '.'
  let digits ← run Char.isDigit
  if digits.isEmpty then failure

-- A time of day, with a leap second if need be.
def time : Reader Unit := do
  let _ ← field 2 0 23
  symbol ':'
  let _ ← field 2 0 59
  symbol ':'
  let _ ← field 2 0 60
  optional fraction

def zone : Reader Unit :=
  symbol 'Z' <|> symbol 'z' <|> do
    symbol '+' <|> symbol '-'
    let _ ← field 2 0 23
    symbol ':'
    let _ ← field 2 0 59

-- A date, a time, or both of them and perhaps a time zone.
def dateTime : Reader Unit :=
  (do
    date
    optional do
      symbol 'T' <|> symbol 't' <|> symbol ' '
      time
      optional zone) <|> time

end RankPoly.Toml.Date
