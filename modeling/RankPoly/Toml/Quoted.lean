import RankPoly.Toml.Number
import RankPoly.Toml.Reader

namespace RankPoly.Toml

-- The character whose number stands in `count` hexadecimal digits.
def codePoint? (count : Nat) (text : List Char) : Option Char :=
  let code := text.take count
  if code.length = count && code.all (isDigitOf 16) && (numeral 16 code).isValidChar then
    some (Char.ofNat (numeral 16 code))
  else none

-- The character that is written behind a backslash, and how many characters it
-- is written with.
def escaped? : List Char → Option (Char × Nat)
  | 'b' :: _ => some ('\x08', 1)
  | 't' :: _ => some ('\t', 1)
  | 'n' :: _ => some ('\n', 1)
  | 'f' :: _ => some ('\x0c', 1)
  | 'r' :: _ => some ('\r', 1)
  | '"' :: _ => some ('"', 1)
  | '\\' :: _ => some ('\\', 1)
  | 'u' :: rest => (codePoint? 4 rest).map fun c => (c, 5)
  | 'U' :: rest => (codePoint? 8 rest).map fun c => (c, 9)
  | _ => none

-- A text up to its closing double quote, and what is behind that. The first
-- `skip` characters have been read already.
def untilQuote : (skip : Nat) → List Char → Option (List Char × List Char)
  | _, [] => none
  | skip + 1, _ :: rest => untilQuote skip rest
  | 0, c :: rest =>
    if c = '"' then some ([], rest)
    else if c = '\\' then
      match escaped? rest with
      | some (c, length) => (untilQuote length rest).map fun (text, after) => (c :: text, after)
      | none => none
    else if isPlain c then (untilQuote 0 rest).map fun (text, after) => (c :: text, after)
    else none

-- A text between double quotes.
def basicText : Reader (List Char) := do
  Reader.symbol '"'
  match untilQuote 0 (← get) with
  | some (text, rest) =>
    set rest
    return text
  | none => failure

-- A text between single quotes, which has no escapes.
def literalText : Reader (List Char) := do
  Reader.symbol '\''
  let text ← Reader.run fun c => isPlain c && c ≠ '\''
  Reader.symbol '\''
  return text

def dropQuotes (quote : Char) : (limit : Nat) → List Char → List Char
  | 0, text => text
  | _, [] => []
  | limit + 1, c :: rest => if c = quote then dropQuotes quote limit rest else c :: rest

-- What is behind the three quotes that close a text of several lines. Up to two
-- more of them belong to the text. A backslash at the end of a line joins lines.
def behindQuotes (quote : Char) : (skip : Nat) → List Char → Option (List Char)
  | _, [] => none
  | skip + 1, _ :: rest => behindQuotes quote skip rest
  | 0, c :: rest =>
    if c = quote then
      if [quote, quote].isPrefixOf rest then some (dropQuotes quote 4 rest)
      else behindQuotes quote 0 rest
    else if c = '\\' && quote = '"' then
      if atLineEnd (rest.dropWhile space) then behindQuotes quote 0 rest
      else
        match escaped? rest with
        | some (_, length) => behindQuotes quote length rest
        | none => none
    else if isPlain c || atLineEnd (c :: rest) then behindQuotes quote 0 rest
    else none

-- A text between quotes, on one line or between three quotes on several.
def quotedText (quote : Char) : Reader Unit := do
  match ← get with
  | first :: second :: third :: rest =>
    if first = quote && second = quote && third = quote then
      match behindQuotes quote 0 rest with
      | some rest => set rest
      | none => failure
    else oneLine
  | _ => oneLine
where
  oneLine : Reader Unit := do
    let _ ← if quote = '"' then basicText else literalText

end RankPoly.Toml
