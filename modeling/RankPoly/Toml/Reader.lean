namespace RankPoly.Toml

-- A step of reading a text from its start.
abbrev Reader (α : Type) := StateT (List Char) Option α

def space (c : Char) : Bool :=
  c = ' ' || c = '\t'

-- All characters but controls, of which the tab is allowed.
def isPlain (c : Char) : Bool :=
  c = '\t' || (0x20 ≤ c.toNat && c.toNat ≠ 0x7f)

-- Whether a line ends where the text starts.
def atLineEnd : List Char → Bool
  | '\n' :: _ | '\r' :: '\n' :: _ => true
  | _ => false

namespace Reader

def run (accepts : Char → Bool) : Reader (List Char) := fun text =>
  some (text.takeWhile accepts, text.dropWhile accepts)

def spaces : Reader Unit := do
  let _ ← run space

def symbol (c : Char) : Reader Unit := fun text =>
  match text with
  | first :: rest => if first = c then some ((), rest) else none
  | [] => none

def optional (step : Reader Unit) : Reader Unit :=
  step <|> return ()

def comment : Reader Unit := do
  if (← get).head? = some '#' then
    let _ ← run isPlain

-- The end of a line. At the end of the text there need not be one.
def lineEnd : Reader Unit := fun text =>
  match text with
  | [] => some ((), [])
  | '\n' :: rest | '\r' :: '\n' :: rest => some ((), rest)
  | _ => none

-- What may follow on the line.
def restOfLine : Reader Unit := do
  spaces
  comment
  lineEnd

-- Blanks, comments and line ends, as they may stand within an array.
def gap : (limit : Nat) → Reader Unit
  | 0 => return ()
  | limit + 1 => do
    spaces
    comment
    if atLineEnd (← get) then
      lineEnd
      gap limit

end Reader

end RankPoly.Toml
