import RankPoly.Binary64.Printer
import RankPoly.Ty.Basic

namespace RankPoly

-- A literal.
inductive Const where
  | bool (value : Bool)
  | int (value : Int)
  | float (value : Binary64)
  | none
  deriving DecidableEq, Repr

namespace Const

def ty : Const → Ty
  | .bool _ => .bool
  | .int _ => .i64
  | .float _ => .f64
  | .none => .none

-- Literals of one form with values that compare equal.
def same : Const → Const → Bool
  | .float lhs, .float rhs => lhs.same rhs
  | lhs, rhs => lhs = rhs

def render : Const → String
  | .bool value => toString value
  | .int value => toString value
  | .float value => value.render
  | .none => "none"

def dump : Const → String
  | .bool value => toString value
  | .int value => toString value
  | .float value => value.renderPlain
  | .none => "None"

end Const

end RankPoly
