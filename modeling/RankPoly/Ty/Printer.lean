import RankPoly.Text.Commas
import RankPoly.Ty.Basic

namespace RankPoly.Ty

mutual

-- A type in signature syntax, so that what is printed can be read back.
def chars : Ty → List Char
  | .unknown => ['?']
  | .scalar kind => kind.name.toList
  | .array elem rank =>
    "array<".toList ++ elem.name.toList ++ ", ".toList ++ Nat.toDigits 10 rank ++ ['>']
  | .tuple [elem] => '(' :: chars elem ++ [',', ')']
  | .tuple elems => '(' :: Text.commaChars (charsList elems) ++ [')']
  | .struct fields => '\x7b' :: Text.commaChars (charsFields fields) ++ ['\x7d']
  | .closure target => charsClosure target
  | .closureSet members =>
    "one_of[".toList ++ Text.commaChars (charsClosures members) ++ [']']
  | .slice start stop step =>
    "slice<".toList ++ chars start ++ ", ".toList ++ chars stop ++ ", ".toList ++
      chars step ++ ['>']
  | .none => "none".toList

def charsList : List Ty → List (List Char)
  | [] => []
  | ty :: rest => chars ty :: charsList rest

def charsFields : List (String × Ty) → List (List Char)
  | [] => []
  | (name, ty) :: rest => (name.toList ++ ": ".toList ++ chars ty) :: charsFields rest

def charsClosure : Closure → List Char
  | ⟨func, captured⟩ =>
    "closure<".toList ++ func.toList ++ ">(".toList ++
      Text.commaChars (charsList captured) ++ [')']

def charsClosures : List Closure → List (List Char)
  | [] => []
  | member :: rest => charsClosure member :: charsClosures rest

end

def render (ty : Ty) : String :=
  String.ofList ty.chars

-- The types of an argument list, as they stand in messages.
def renderList (tys : List Ty) : String :=
  String.ofList (Text.commaChars (charsList tys))

end RankPoly.Ty
