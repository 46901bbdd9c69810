import RankPoly.Text.Commas
import RankPoly.Text.Quoted

namespace RankPoly.Dump

-- The one-line dump of a value: names of forms and fields, and all parts.

def list (parts : List String) : String :=
  "[" ++ Text.commaSeparated parts ++ "]"

def set (parts : List String) : String :=
  "\x7b" ++ Text.commaSeparated parts ++ "\x7d"

def form (name : String) (parts : List String) : String :=
  name ++ "(" ++ Text.commaSeparated parts ++ ")"

def record (name : String) (fields : List (String × String)) : String :=
  name ++ " \x7b " ++ Text.commaSeparated (fields.map fun field => field.1 ++ ": " ++ field.2) ++
    " \x7d"

def optional : Option String → String
  | none => "None"
  | some part => form "Some" [part]

end RankPoly.Dump
