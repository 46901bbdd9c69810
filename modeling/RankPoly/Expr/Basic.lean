import RankPoly.Const
import RankPoly.Prim

namespace RankPoly

-- How a function is folded over the outer positions of an array: to the last
-- value, or to all values on the way.
inductive Fold where
  | reduce
  | scan
  deriving DecidableEq, Repr

-- An expression without types.
inductive Expr where
  | var (name : String)
  | const (value : Const)
  | tuple (elems : List Expr)
  | array (elems : List Expr)
  | index (value selector : Expr)
  | slice (start stop step : Expr)
  | attribute (value : Expr) (name : String)
  | prim (op : Prim) (args : List Expr)
  | closure (func : String) (captured : List Expr)
  | invoke (callee : Expr) (args : List Expr)
  | map (callee : Expr) (args : List Expr) (axis : Option Expr)
  | fold (kind : Fold) (callee : Expr) (args : List Expr) (axis init combiner : Option Expr)
  | allPairs (callee : Expr) (args : List Expr) (axis : Option Expr)

namespace Expr

-- Sets the initial value of a fold. Other expressions stay as they are.
def withInit (expr value : Expr) : Expr :=
  match expr with
  | .fold kind callee args axis _ combiner => .fold kind callee args axis (some value) combiner
  | expr => expr

-- Sets the combiner of a fold. Other expressions stay as they are.
def withCombiner (expr combiner : Expr) : Expr :=
  match expr with
  | .fold kind callee args axis init _ => .fold kind callee args axis init (some combiner)
  | expr => expr

mutual

-- Expressions that differ at most in how equal numbers are written.
def same : Expr → Expr → Bool
  | .var m, .var n => m = n
  | .const c, .const d => c.same d
  | .tuple xs, .tuple ys => sameList xs ys
  | .array xs, .array ys => sameList xs ys
  | .index x i, .index y j => same x y && same i j
  | .slice x y z, .slice x' y' z' => same x x' && same y y' && same z z'
  | .attribute x m, .attribute y n => same x y && m = n
  | .prim p xs, .prim q ys => p = q && sameList xs ys
  | .closure f xs, .closure g ys => f = g && sameList xs ys
  | .invoke f xs, .invoke g ys => same f g && sameList xs ys
  | .map f xs a, .map g ys b => same f g && sameList xs ys && sameOption a b
  | .fold k f xs a i c, .fold l g ys b j d =>
    k = l && same f g && sameList xs ys && sameOption a b && sameOption i j && sameOption c d
  | .allPairs f xs a, .allPairs g ys b => same f g && sameList xs ys && sameOption a b
  | _, _ => false
  termination_by structural lhs => lhs

def sameList : List Expr → List Expr → Bool
  | [], [] => true
  | x :: xs, y :: ys => same x y && sameList xs ys
  | _, _ => false
  termination_by structural lhs => lhs

def sameOption : Option Expr → Option Expr → Bool
  | none, none => true
  | some x, some y => same x y
  | _, _ => false
  termination_by structural lhs => lhs

end

end Expr

end RankPoly
