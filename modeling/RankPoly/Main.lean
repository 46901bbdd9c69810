import RankPoly.Command.Run

namespace RankPoly.Command

-- A file with its text, where that can be read.
def readFile (path : String) : IO File := do
  try
    let text ← IO.FS.readFile path
    return { path, text := some text }
  catch _ => return { path, text := none }

-- The nearest settings file in a directory, given by its names, or above.
def findFile : (names : List String) → IO (Option File)
  | [] => return none
  | name :: above => do
    match ← check ("/".intercalate (name :: above).reverse) with
    | some file => return some file
    | none => findFile above
where
  check (directory : String) : IO (Option File) := do
    let file ← readFile (directory ++ "/" ++ LimitsFile.fileName)
    return if file.text.isSome then some file else none

-- The file that a task takes its limits from.
def limitsFile (invocation : Invocation) : IO (Option File) := do
  match invocation.task, invocation.config with
  | .list, _ => return none
  | _, some path => return some (← readFile path)
  | _, none =>
    let directory ← IO.currentDir
    findFile (directory.toString.splitOn "/").reverse

end RankPoly.Command

open RankPoly.Command in
-- Lists the demos or specializes one of them, as the command line says.
def main (args : List String) : IO UInt32 := do
  match parse? args with
  | none =>
    IO.eprintln "usage: rankjit [-v] [--config PATH] (list | specialize FUNC [TYPES]...)"
    return 2
  | some invocation =>
    match run invocation.task (← limitsFile invocation) with
    | .ok text =>
      IO.print text
      return 0
    | .error failure =>
      IO.eprintln ("Error: " ++ failure.message)
      return 1
