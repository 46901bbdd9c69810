namespace RankPoly.Text

-- The parts with a comma and a space between them.
def commaChars : List (List Char) → List Char
  | [] => []
  | [part] => part
  | part :: rest => part ++ ", ".toList ++ commaChars rest

def commaSeparated (parts : List String) : String :=
  ", ".intercalate parts

end RankPoly.Text
