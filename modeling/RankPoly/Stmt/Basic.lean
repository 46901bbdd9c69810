namespace RankPoly

-- A variable that takes one of two values, by the way control came: the first
-- from the true branch or on entering a loop, the second from the false branch
-- or at the end of the loop's body.
structure Merge (ε : Type) where
  var : String
  left : ε
  right : ε

-- A statement, over any kind of expression.
inductive Stmt (ε : Type) where
  | assign (target value : ε)
  | branch (cond : ε) (onTrue onFalse : List (Stmt ε)) (merges : List (Merge ε))
  | loop (cond : ε) (body : List (Stmt ε)) (merges : List (Merge ε))
  | ret (value : ε)

namespace Merge

def same {ε : Type} (sameExpr : ε → ε → Bool) (lhs rhs : Merge ε) : Bool :=
  lhs.var = rhs.var && sameExpr lhs.left rhs.left && sameExpr lhs.right rhs.right

def sameList {ε : Type} (sameExpr : ε → ε → Bool) : List (Merge ε) → List (Merge ε) → Bool
  | [], [] => true
  | x :: xs, y :: ys => x.same sameExpr y && sameList sameExpr xs ys
  | _, _ => false

end Merge

namespace Stmt

mutual

def same {ε : Type} (sameExpr : ε → ε → Bool) : Stmt ε → Stmt ε → Bool
  | .assign x v, .assign y w => sameExpr x y && sameExpr v w
  | .branch c xs xs' ms, .branch d ys ys' ns =>
    sameExpr c d && sameBlock sameExpr xs ys && sameBlock sameExpr xs' ys' &&
      Merge.sameList sameExpr ms ns
  | .loop c xs ms, .loop d ys ns =>
    sameExpr c d && sameBlock sameExpr xs ys && Merge.sameList sameExpr ms ns
  | .ret v, .ret w => sameExpr v w
  | _, _ => false
  termination_by structural lhs => lhs

def sameBlock {ε : Type} (sameExpr : ε → ε → Bool) : List (Stmt ε) → List (Stmt ε) → Bool
  | [], [] => true
  | x :: xs, y :: ys => same sameExpr x y && sameBlock sameExpr xs ys
  | _, _ => false
  termination_by structural lhs => lhs

end

end Stmt

end RankPoly
