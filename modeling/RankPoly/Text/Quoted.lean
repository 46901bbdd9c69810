import RankPoly.Text.Unprinted

namespace RankPoly.Text

-- A character by its number, in lower case hexadecimal without padding.
def numbered (c : Char) : List Char :=
  "\\u\x7b".toList ++ Nat.toDigits 16 c.toNat ++ ['\x7d']

-- A character as it stands between double quotes.
def escape (c : Char) : List Char :=
  if c = '"' then ['\\', '"']
  else if c = '\\' then ['\\', '\\']
  else if c = '\n' then ['\\', 'n']
  else if c = '\r' then ['\\', 'r']
  else if c = '\t' then ['\\', 't']
  else if c = '\x00' then ['\\', '0']
  else if c.toNat < 0x20 || isUnprinted c then numbered c
  else [c]

-- A text between double quotes. Single quotes stay as they are.
def quote (text : String) : String :=
  String.ofList ('"' :: text.toList.flatMap escape ++ ['"'])

end RankPoly.Text
