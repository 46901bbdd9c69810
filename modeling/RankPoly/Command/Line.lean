namespace RankPoly.Command

-- What the command is asked to do.
inductive Task where
  | list
  | specialize (func : String) (types : List String)
  deriving DecidableEq, Repr

structure Invocation where
  config : Option String
  task : Task
  deriving DecidableEq, Repr

-- The words of a command line as far as they are options, and the others.
structure Words where
  config : Option String := none
  operands : List String := []
  rest : List String := []

-- Whether a word can be the value of an option.
def isValue (word : String) : Bool :=
  word ≠ "" && (word = "-" || word.toList.head? ≠ some '-')

-- `-v`, or several of them in one word.
def isVerbose (word : String) : Bool :=
  word = "--verbose" ||
    match word.toList with
    | '-' :: c :: more => c = 'v' && more.all (· = 'v')
    | _ => false

def configPrefix : List Char := "--config=".toList

-- Sets the file to read, which can be done once.
def setConfig (words : Words) (path : String) : Option Words :=
  if words.config.isSome || path = "" then none
  else some { words with config := some path }

-- Splits words into options and operands. After `--` all words are operands.
-- With `single` it stops behind the first operand.
def split (single : Bool) : Words → List String → Option Words
  | words, [] => some words
  | words, "--" :: rest =>
    if single then none else some { words with operands := words.operands ++ rest }
  | _, ["--config"] => none
  | words, "--config" :: path :: rest =>
    if isValue path then
      match setConfig words path with
      | some words => split single words rest
      | none => none
    else none
  | words, word :: rest =>
    if configPrefix.isPrefixOf word.toList then
      match setConfig words (String.ofList (word.toList.drop configPrefix.length)) with
      | some words => split single words rest
      | none => none
    else if isVerbose word then split single words rest
    else if word ≠ "-" && word.toList.head? = some '-' then none
    else if single then some { words with operands := [word], rest }
    else split single { words with operands := words.operands ++ [word] } rest

def task? (name : String) (operands : List String) : Option Task :=
  match name, operands with
  | "list", [] => some .list
  | "specialize", func :: types => some (.specialize func types)
  | _, _ => none

-- Reads a command line. Options may stand before and after the name of the
-- task, and those after it count first.
def parse? (args : List String) : Option Invocation := do
  let before ← split true {} args
  match before.operands with
  | [name] =>
    let after ← split false {} before.rest
    let task ← task? name after.operands
    return { config := after.config <|> before.config, task }
  | _ => none

end RankPoly.Command
