import RankPoly.Signature.Rule
import RankPoly.Signature.Tree

namespace RankPoly.Signature

-- Where a text stops being a signature, and what could stand there.
structure Unexpected where
  offset : Nat
  line : Nat
  column : Nat
  shown : List Char
  expected : List Rule

namespace Unexpected

-- The text before an offset in bytes, and the text from there on.
def splitAtByte : (offset : Nat) → List Char → List Char × List Char
  | _, [] => ([], [])
  | offset, c :: rest =>
    if offset < c.utf8Size then ([], c :: rest)
    else
      let (before, after) := splitAtByte (offset - c.utf8Size) rest
      (c :: before, after)

-- The part of a text up to its first line end, line end included.
def throughLineEnd : List Char → List Char
  | [] => []
  | c :: rest => if c = '\n' then [c] else c :: throughLineEnd rest

def visibleLineEnd (c : Char) : Char :=
  if c = '\r' then '␍' else if c = '\n' then '␊' else c

-- Line ends are only shown where one of them is what is unexpected.
def shownLine (line after : List Char) : List Char :=
  match after with
  | '\n' :: _ | '\r' :: _ => line.map visibleLineEnd
  | _ => line.filter fun c => c ≠ '\r' && c ≠ '\n'

def ofFurthest (text : List Char) (furthest : Furthest) : Unexpected :=
  let (before, after) := splitAtByte furthest.offset text
  let lineStart := (before.reverse.takeWhile (· ≠ '\n')).reverse
  { offset := furthest.offset
    line := before.count '\n' + 1
    column := lineStart.length + 1
    shown := shownLine (lineStart ++ throughLineEnd after) after
    expected := furthest.expected }

-- Names as they are enumerated in a sentence.
def enumerate : List String → String
  | [] => ""
  | [name] => name
  | [first, second] => first ++ " or " ++ second
  | names => ", ".intercalate names.dropLast ++ ", or " ++ names.getLastD ""

def mark (problem : Unexpected) : List Char :=
  (problem.shown.take (problem.column - 1)).map (fun c => if c = '\t' then '\t' else ' ') ++
    "^---".toList

def message (problem : Unexpected) : String :=
  let line := toString problem.line
  let margin := String.ofList (List.replicate line.length ' ')
  "\n".intercalate
    [margin ++ "--> " ++ line ++ ":" ++ toString problem.column,
      margin ++ " |",
      line ++ " | " ++ String.ofList problem.shown,
      margin ++ " | " ++ String.ofList problem.mark,
      margin ++ " |",
      margin ++ " = expected " ++ enumerate (problem.expected.map Rule.name)]

end Unexpected

-- Why a text denotes no type.
inductive Error where
  | unexpected (problem : Unexpected)
  | rankOutOfRange (span : Span)
  | rankZero (span : Span)
  | duplicateField (name : String) (span : Span)

namespace Error

-- The part of the text that is to blame. Unexpected text has no extent.
def span : Error → Span
  | .unexpected problem => ⟨problem.offset, problem.offset⟩
  | .rankOutOfRange span | .rankZero span | .duplicateField _ span => span

def located (text : String) (span : Span) : String :=
  text ++ " at " ++ toString span.start ++ ".." ++ toString span.stop

def message : Error → String
  | .unexpected problem => problem.message
  | .rankOutOfRange span => located "array rank out of range" span
  | .rankZero span => located "array rank must be at least 1" span
  | .duplicateField name span => located ("duplicate field `" ++ name ++ "`") span

end Error

end RankPoly.Signature
