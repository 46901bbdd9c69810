import RankPoly.Func.Basic

namespace RankPoly

-- An expression in which every node has its type. Indexing a tuple has become
-- a projection, and an axis is a number.
inductive TypedExpr where
  | var (name : String) (ty : Ty)
  | const (value : Const) (ty : Ty)
  | tuple (elems : List TypedExpr) (ty : Ty)
  | array (elems : List TypedExpr) (ty : Ty)
  | index (value selector : TypedExpr) (ty : Ty)
  | project (value : TypedExpr) (slot : Nat) (ty : Ty)
  | slice (start stop step : TypedExpr) (ty : Ty)
  | attribute (value : TypedExpr) (name : String) (ty : Ty)
  | prim (op : Prim) (args : List TypedExpr) (ty : Ty)
  | closure (func : String) (captured : List TypedExpr) (ty : Ty)
  | invoke (callee : TypedExpr) (args : List TypedExpr) (ty : Ty)
  | map (callee : TypedExpr) (args : List TypedExpr) (axis : Option Nat) (ty : Ty)
  | fold (kind : Fold) (callee arg : TypedExpr) (axis : Option Nat)
      (combiner : Option TypedExpr) (ty : Ty)
  | allPairs (callee lhs rhs : TypedExpr) (axis : Option Nat) (ty : Ty)

def TypedExpr.ty : TypedExpr → Ty
  | .var _ ty | .const _ ty | .tuple _ ty | .array _ ty | .index _ _ ty | .project _ _ ty
  | .slice _ _ _ ty | .attribute _ _ ty | .prim _ _ ty | .closure _ _ ty | .invoke _ _ ty
  | .map _ _ _ ty | .fold _ _ _ _ _ ty | .allPairs _ _ _ _ ty => ty

abbrev TypedStmt := Stmt TypedExpr

-- A function specialized for the types of its arguments. Its own name and the
-- names of its variables are fresh, and `env` has the final type of each
-- variable.
structure Specialization where
  name : String
  source : String
  params : Params
  body : List TypedStmt
  inputs : List Ty
  returnType : Ty
  env : NameMap Ty

end RankPoly
