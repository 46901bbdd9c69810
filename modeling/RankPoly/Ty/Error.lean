import RankPoly.Ty.Printer

namespace RankPoly

-- Why an operation on types has no result.
inductive TyError where
  | conflict (lhs rhs : Ty)
  | lowerRank (ty : Ty) (count : Nat)
  | raiseRank (ty : Ty) (count : Nat)
  | index (value selector : Ty)
  deriving DecidableEq

namespace TyError

def message : TyError → String
  | .conflict lhs rhs => "cannot combine " ++ lhs.render ++ " with " ++ rhs.render
  | .lowerRank ty count =>
    "cannot lower the rank of " ++ ty.render ++ " by " ++ toString count
  | .raiseRank ty count =>
    "cannot raise the rank of " ++ ty.render ++ " by " ++ toString count
  | .index value selector =>
    "cannot index a value of type " ++ value.render ++ " with " ++ selector.render

end TyError

end RankPoly
