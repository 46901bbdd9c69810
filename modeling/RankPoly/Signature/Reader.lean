import RankPoly.Signature.Rule

namespace RankPoly.Signature

-- A place in the text, by what is left of it and by its offset in bytes.
structure Cursor where
  rest : List Char
  offset : Nat

namespace Cursor

def byteCount (text : List Char) : Nat :=
  text.foldl (fun count c => count + c.utf8Size) 0

-- The place behind the first `count` characters.
def advance (cursor : Cursor) (count : Nat) : Cursor where
  rest := cursor.rest.drop count
  offset := cursor.offset + byteCount (cursor.rest.take count)

end Cursor

-- A step of reading. It fails or moves the cursor on, and in either case
-- remembers the furthest failure. Where it fails the cursor stays.
abbrev Reader (α : Type) := StateT Cursor (OptionT (StateM Furthest)) α

def isBlank (c : Char) : Bool :=
  c = ' ' || c = '\t' || c = '\r' || c = '\n'

namespace Reader

-- The longest run of characters of a class, possibly empty.
def run (accepts : Char → Bool) : Reader (List Char) := do
  let cursor ← get
  let text := cursor.rest.takeWhile accepts
  set (cursor.advance text.length)
  return text

def blanks : Reader Unit := do
  let _ ← run isBlank

-- A fixed text after any blanks.
def symbol (text : List Char) : Reader Unit := do
  blanks
  let cursor ← get
  if text.isPrefixOf cursor.rest then set (cursor.advance text.length) else failure

def endOfText : Reader Unit := do
  let cursor ← get
  if cursor.rest.isEmpty then return () else failure

-- Reads by a rule, whose failure is noted for the place where it was entered.
def rule {α : Type} (name : Rule) (body : Reader α) : Reader α := fun cursor furthest =>
  let before := furthest.countAt cursor.offset
  match body cursor furthest with
  | (some result, furthest) => (some result, furthest)
  | (none, furthest) => (none, furthest.record name cursor.offset before)

-- The item as often as it can be read, at most `limit` times.
def many {α : Type} (item : Reader α) : (limit : Nat) → Reader (List α)
  | 0 => return []
  | limit + 1 =>
    (do
      let first ← item
      let others ← many item limit
      return first :: others) <|> return []

-- One item or more, with commas between them. Each further item takes at
-- least its comma, so the text that is left bounds their number.
def separated {α : Type} (item : Reader α) : Reader (List α) := do
  let first ← item
  let cursor ← get
  let others ← many (do symbol [',']; item) cursor.rest.length
  return first :: others

-- As the reader does, or nothing.
def orEmpty {α : Type} (list : Reader (List α)) : Reader (List α) :=
  list <|> return []

-- One item or more, and perhaps a comma behind the last one.
def separatedOrEnded {α : Type} (item : Reader α) : Reader (List α) := do
  let items ← separated item
  symbol [','] <|> return ()
  return items

end Reader

end RankPoly.Signature
