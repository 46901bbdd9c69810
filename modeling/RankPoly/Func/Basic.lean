import RankPoly.Expr.Basic
import RankPoly.Func.Params
import RankPoly.Stmt.Basic

namespace RankPoly

-- A function without types, known by its name.
structure Func where
  name : String
  params : Params
  body : List (Stmt Expr)

namespace Func

-- Functions that differ at most in how equal numbers are written.
def same (lhs rhs : Func) : Bool :=
  lhs.name = rhs.name && lhs.params.same rhs.params && Stmt.sameBlock Expr.same lhs.body rhs.body

end Func

end RankPoly
