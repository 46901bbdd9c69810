import RankPoly.Signature.Reader
import RankPoly.Signature.Tree

namespace RankPoly.Signature

open Reader

def isWord (c : Char) : Bool :=
  c.isAlphanum || c = '_'

-- What was read, with the part of the text it was read from.
def spanned {α : Type} (body : Reader α) : Reader (α × Span) := do
  let start ← get
  let result ← body
  let stop ← get
  return (result, ⟨start.offset, stop.offset⟩)

-- A rule that stands behind blanks.
def item {α : Type} (name : Rule) (body : Reader α) : Reader α := do
  blanks
  rule name body

-- A letter or an underscore, then also digits and dots.
def identifier : Reader String :=
  item .identifier do
    let text ← run fun c => isWord c || c = '.'
    match text with
    | first :: _ => if first.isDigit || first = '.' then failure else return String.ofList text
    | [] => failure

def digits : Reader (List Char × Span) :=
  item .digits <| spanned do
    let text ← run Char.isDigit
    if text.isEmpty then failure else return text

def scalar : Reader Scalar :=
  item .scalar do
    let text ← run isWord
    match Scalar.ofName? (String.ofList text) with
    | some kind => return kind
    | none => failure

def noneTy : Reader Tree :=
  item .none do
    let text ← run isWord
    if text = "none".toList then return .none else failure

def unknownTy : Reader Tree :=
  item .unknown do
    symbol ['?']
    return .unknown

def arrayTy : Reader Tree :=
  item .array do
    let ((elem, digits, rankSpan), span) ← spanned do
      symbol "array".toList
      symbol ['<']
      let elem ← scalar
      symbol [',']
      let (digits, rankSpan) ← digits
      symbol ['>']
      return (elem, digits, rankSpan)
    return .array elem digits rankSpan span

-- The other forms hold types, which are read by `ty`.

def sliceTy (ty : Reader Tree) : Reader Tree :=
  item .slice do
    symbol "slice".toList
    symbol ['<']
    let start ← ty
    symbol [',']
    let stop ← ty
    symbol [',']
    let step ← ty
    symbol ['>']
    return .slice start stop step

def closureTy (ty : Reader Tree) : Reader (String × List Tree) :=
  item .closure do
    symbol "closure".toList
    symbol ['<']
    let func ← identifier
    symbol ['>']
    symbol ['(']
    let captured ← orEmpty (separated ty)
    symbol [')']
    return (func, captured)

def closureSetTy (ty : Reader Tree) : Reader Tree :=
  item .closureSet do
    symbol "one_of".toList
    symbol ['[']
    let members ← separated (closureTy ty)
    symbol [']']
    return .closureSet members

def tupleTy (ty : Reader Tree) : Reader Tree :=
  item .tuple do
    symbol ['(']
    let elems ← orEmpty (separatedOrEnded ty)
    symbol [')']
    return .tuple elems

def field (ty : Reader Tree) : Reader (Span × String × Tree) := do
  let ((name, tree), span) ← item .field <| spanned do
    let name ← identifier
    symbol [':']
    let tree ← ty
    return (name, tree)
  return (span, name, tree)

def structTy (ty : Reader Tree) : Reader Tree :=
  item .struct do
    symbol ['\x7b']
    let fields ← orEmpty (separatedOrEnded (field ty))
    symbol ['\x7d']
    return .struct fields

-- A type that is nested less than `depth` deep.
def tyWithin : (depth : Nat) → Reader Tree
  | 0 => failure
  | depth + 1 =>
    let ty := tyWithin depth
    item .ty <|
      arrayTy <|> sliceTy ty <|> closureSetTy ty <|>
        (do
          let (func, captured) ← closureTy ty
          return .closure func captured) <|>
        tupleTy ty <|> structTy ty <|> noneTy <|> unknownTy <|>
        (do
          let kind ← scalar
          return .scalar kind)

-- Every level of nesting takes a character, so the text bounds the depth.
def ty : Reader Tree := do
  let cursor ← get
  tyWithin (cursor.rest.length + 1)

def endOfInput : Reader Unit :=
  item .endOfInput endOfText

-- A text that holds one type.
def signature : Reader Tree :=
  rule .signature do
    let tree ← ty
    endOfInput
    return tree

-- A text that holds any number of types with commas between them.
def signatureList : Reader (List Tree) :=
  rule .signatureList do
    let trees ← orEmpty (separated ty)
    endOfInput
    return trees

-- Runs a reader over a whole text. Without a result it is the furthest
-- failure that counts.
def readAll {α : Type} (reader : Reader α) (text : List Char) : Except Furthest α :=
  match reader { rest := text, offset := 0 } {} with
  | (some (result, _), _) => .ok result
  | (none, furthest) => .error furthest

end RankPoly.Signature
