import RankPoly.Command.Line
import RankPoly.LimitsFile
import RankPoly.Demo
import RankPoly.Signature.Parser
import RankPoly.Typed.Printer

namespace RankPoly.Command

-- A file as far as a task sees it: its name, and its text if it can be read.
structure File where
  path : String
  text : Option String

-- What a run fails with. A signature is shown with its place on the command
-- line.
inductive Failure where
  | unreadable (path : String)
  | invalid (path : String)
  | noExample (func : String)
  | signature (argument : Nat) (error : Signature.Error)
  | example (error : Signature.Error)
  | specialize (error : SpecializeError)

namespace Failure

def message : Failure → String
  | .unreadable path => "failed to read " ++ path
  | .invalid path => "invalid " ++ path
  | .noExample func => "no argument types given and `" ++ func ++ "` has no example"
  | .signature .. | .example _ => "invalid type signature"
  | .specialize error => error.message

-- What the shown signature is called.
def source? : Failure → Option String
  | .signature argument _ => some ("argument " ++ toString argument)
  | .example _ => some "example"
  | _ => none

end Failure

def padRight (width : Nat) (text : String) : String :=
  text ++ String.ofList (List.replicate (width - text.length) ' ')

def listing : String :=
  String.join <| Demo.catalog.map fun demo =>
    padRight 14 demo.name ++ " " ++ padRight 36 demo.exampleArgs ++ " " ++ demo.about ++ "\n"

-- The limits of a file, or the usual ones without a file.
def limitsOf : Option File → Except Failure Limits
  | none => .ok {}
  | some file =>
    match file.text with
    | none => .error (.unreadable file.path)
    | some text =>
      match LimitsFile.parse? text with
      | none => .error (.invalid file.path)
      | some given => .ok given.limits

def registerAll : List Func → Session Unit
  | [] => return ()
  | func :: rest => do
    let _ ← Session.register func
    registerAll rest

-- The types on the command line, the first one being argument `position`.
def parseArguments : (position : Nat) → List String → Except Failure (List Ty)
  | _, [] => .ok []
  | position, text :: rest =>
    match Ty.parse text with
    | .error error => .error (.signature position error)
    | .ok ty => (parseArguments (position + 1) rest).map (ty :: ·)

-- The argument types given or, if there are none, those of the example.
def argumentTypes (func : String) : List String → Except Failure (List Ty)
  | [] =>
    match Demo.find? func with
    | none => .error (.noExample func)
    | some demo => (Ty.parseList demo.exampleArgs).mapError .example
  | types => parseArguments 1 types

-- What a task prints, with the file that its limits come from.
def run (task : Task) (file : Option File) : Except Failure String := do
  match task with
  | .list => return listing
  | .specialize func types =>
    let limits ← limitsOf file
    let (registered, store) := (registerAll Demo.funcs).run {}
    let _ ← registered.mapError Failure.specialize
    let tys ← argumentTypes func types
    let (result, _) := (Session.specialize { limits } func tys).run store
    let spec ← result.mapError Failure.specialize
    return spec.render

end RankPoly.Command
