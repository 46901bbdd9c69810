import RankPoly.Dump
import RankPoly.Stmt.Basic

namespace RankPoly

namespace Stmt

def dumpMerge {ε : Type} (dumpExpr : ε → String) (merge : Merge ε) : String :=
  Dump.record "PhiNode"
    [("var", Text.quote merge.var), ("left", dumpExpr merge.left),
      ("right", dumpExpr merge.right)]

mutual

def dump {ε : Type} (dumpExpr : ε → String) : Stmt ε → String
  | .assign target value =>
    Dump.record "Assign" [("lhs", dumpExpr target), ("rhs", dumpExpr value)]
  | .branch cond onTrue onFalse merges =>
    Dump.record "If"
      [("cond", dumpExpr cond), ("true_block", Dump.list (dumpBlock dumpExpr onTrue)),
        ("false_block", Dump.list (dumpBlock dumpExpr onFalse)),
        ("merge", Dump.list (merges.map (dumpMerge dumpExpr)))]
  | .loop cond body merges =>
    Dump.record "While"
      [("cond", dumpExpr cond), ("body", Dump.list (dumpBlock dumpExpr body)),
        ("merge", Dump.list (merges.map (dumpMerge dumpExpr)))]
  | .ret value => Dump.form "Return" [dumpExpr value]

def dumpBlock {ε : Type} (dumpExpr : ε → String) : List (Stmt ε) → List String
  | [] => []
  | stmt :: rest => dump dumpExpr stmt :: dumpBlock dumpExpr rest

end

end Stmt

end RankPoly
