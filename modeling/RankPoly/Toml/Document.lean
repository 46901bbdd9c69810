import RankPoly.Toml.Date
import RankPoly.Toml.Quoted

namespace RankPoly.Toml

open Reader

def isBareKey (c : Char) : Bool :=
  c.isAlphanum || c = '_' || c = '-'

def isWordPart (c : Char) : Bool :=
  isBareKey c || c = '+' || c = '.'

def name : Reader String := do
  match ← get with
  | '"' :: _ => return String.ofList (← basicText)
  | '\'' :: _ => return String.ofList (← literalText)
  | _ =>
    let text ← run isBareKey
    if text.isEmpty then failure else return String.ofList text

-- At most `limit` names with dots between them.
def keyWithin : (limit : Nat) → Reader Key
  | 0 => failure
  | limit + 1 => do
    spaces
    let name ← name
    spaces
    match ← get with
    | '.' :: rest =>
      set rest
      let key ← keyWithin limit
      return { key with path := name :: key.path }
    | _ => return { path := [], name }

-- How many names a key may have, and how many arrays and inline tables may hold
-- each other.
def depthLimit : Nat := 79

def key : Reader Key := keyWithin depthLimit

-- A key and the value it is given.
def assignment (value : Reader Item) : Reader (Key × Item) := do
  let key ← key
  symbol '='
  spaces
  let item ← value
  return (key, item)

-- The rest of an array: values that are each followed by a comma or by the end.
def arrayRest (value : Reader Item) : (limit : Nat) → Reader Unit
  | 0 => failure
  | limit + 1 => do
    gap limit
    match ← get with
    | ']' :: rest => set rest
    | _ =>
      let _ ← value
      gap limit
      match ← get with
      | ',' :: rest =>
        set rest
        arrayRest value limit
      | _ => symbol ']'

-- The rest of an inline table, of which `known` has been read. A comma stands
-- only between values.
def inlineRest (value : Reader Item) (known : Table) : (limit : Nat) → Reader Unit
  | 0 => failure
  | limit + 1 => do
    let (key, item) ← assignment value
    spaces
    match known.add key item with
    | none => failure
    | some known =>
      match ← get with
      | ',' :: rest =>
        set rest
        inlineRest value known limit
      | _ => symbol '\x7d'

def inlineTable (value : Reader Item) : Reader Unit := do
  spaces
  symbol '\x7d' <|> do inlineRest value [] (← get).length

-- A value that holds no others.
def simpleValue : Reader Item := do
  match ← get with
  | '"' :: _ =>
    quotedText '"'
    return .other
  | '\'' :: _ =>
    quotedText '\''
    return .other
  | _ =>
    (do
      Date.dateTime
      return .other) <|>
    (do
      let word ← run isWordPart
      match word? word with
      | some item => return item
      | none => failure)

-- A value with at most `depth` levels of arrays and inline tables.
def valueWithin : (depth : Nat) → Reader Item
  | 0 => simpleValue
  | depth + 1 => do
    match ← get with
    | '[' :: rest =>
      set rest
      arrayRest (valueWithin depth) (rest.length + 1)
      return .other
    | '\x7b' :: rest =>
      set rest
      inlineTable (valueWithin depth)
      return .other
    | _ => simpleValue

-- The key in a header, with its closing bracket.
def headerRest : Reader Key := do
  let key ← key
  symbol ']'
  return key

-- A whole text as far as it has been read, with the path to the table that
-- values belong to.
structure Document where
  table : Table := []
  current : List String := []

namespace Document

def line (document : Document) : Reader Document := do
  match ← get with
  | '[' :: '[' :: rest =>
    set rest
    let key ← headerRest
    symbol ']'
    enter key (document.table.appendTable key)
  | '[' :: rest =>
    set rest
    let key ← headerRest
    enter key (document.table.openTable key)
  | '#' :: _ | '\n' :: _ | '\r' :: _ => return document
  | _ =>
    let (key, item) ← assignment (valueWithin depthLimit)
    match document.table.changeAt (Table.add key item) document.current with
    | some table => return { document with table }
    | none => failure
where
  enter (key : Key) : Option Table → Reader Document
    | some table => return { table, current := key.path ++ [key.name] }
    | none => failure

def lines : (limit : Nat) → Document → Reader Document
  | 0, _ => failure
  | limit + 1, document => do
    spaces
    if (← get).isEmpty then return document
    let document ← line document
    restOfLine
    lines limit document

end Document

-- Reads a file, which may start with a byte order mark. Every line takes a
-- character, so the text bounds their number.
def parse? (text : String) : Option Table :=
  let text :=
    match text.toList with
    | '\ufeff' :: rest => rest
    | text => text
  (Document.lines (text.length + 1) {} text).map fun result => result.1.table

end RankPoly.Toml
