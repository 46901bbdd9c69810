import RankPoly.Scalar

namespace RankPoly.Signature

-- A part of the text, by the offsets in bytes of its start and its end.
structure Span where
  start : Nat
  stop : Nat
  deriving DecidableEq, Repr

-- A signature as it is written, with the places that later checks point to.
inductive Tree where
  | unknown
  | scalar (kind : Scalar)
  | array (elem : Scalar) (digits : List Char) (rankSpan span : Span)
  | tuple (elems : List Tree)
  | struct (fields : List (Span × String × Tree))
  | closure (func : String) (captured : List Tree)
  | closureSet (members : List (String × List Tree))
  | slice (start stop step : Tree)
  | none

end RankPoly.Signature
