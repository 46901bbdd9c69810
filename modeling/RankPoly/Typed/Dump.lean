import RankPoly.Expr.Dump
import RankPoly.Stmt.Dump
import RankPoly.Ty.Printer
import RankPoly.Typed.Basic

namespace RankPoly

namespace TypedExpr

def dumpAxis (axis : Option Nat) : String :=
  Dump.optional (axis.map toString)

-- A node and its type, which stands in signature form.
def dumpNode (node : String) (ty : Ty) : String :=
  node ++ " : " ++ ty.render

mutual

def dump : TypedExpr → String
  | .var name ty => dumpNode (Dump.form "Var" [name]) ty
  | .const value ty => dumpNode value.dump ty
  | .tuple elems ty => dumpNode (Dump.form "Tuple" [Dump.list (dumpList elems)]) ty
  | .array elems ty => dumpNode (Dump.form "Array" [Dump.list (dumpList elems)]) ty
  | .index value selector ty =>
    dumpNode (Dump.record "Index" [("value", dump value), ("index", dump selector)]) ty
  | .project value slot ty =>
    dumpNode (Dump.record "TupleProj" [("tuple", dump value), ("index", toString slot)]) ty
  | .slice start stop step ty =>
    dumpNode
      (Dump.record "Slice" [("start", dump start), ("stop", dump stop), ("step", dump step)]) ty
  | .attribute value name ty =>
    dumpNode (Dump.record "Attribute" [("value", dump value), ("name", Text.quote name)]) ty
  | .prim op args ty =>
    dumpNode (Dump.record "PrimCall" [("prim", op.dump), ("args", Dump.list (dumpList args))]) ty
  | .closure func captured ty =>
    dumpNode
      (Dump.record "Closure" [("func", func), ("args", Dump.list (dumpList captured))]) ty
  | .invoke callee args ty =>
    dumpNode
      (Dump.record "Invoke" [("closure", dump callee), ("args", Dump.list (dumpList args))]) ty
  | .map callee args axis ty =>
    dumpNode
      (Dump.record "Map"
        [("func", dump callee), ("args", Dump.list (dumpList args)), ("axis", dumpAxis axis)]) ty
  | .fold kind callee arg axis combiner ty =>
    dumpNode
      (Dump.record kind.dump
        [("func", dump callee), ("args", Dump.list [dump arg]), ("axis", dumpAxis axis),
          ("combine", dumpOption combiner)]) ty
  | .allPairs callee lhs rhs axis ty =>
    dumpNode
      (Dump.record "AllPairs"
        [("func", dump callee), ("args", Dump.list [dump lhs, dump rhs]),
          ("axis", dumpAxis axis)]) ty

def dumpList : List TypedExpr → List String
  | [] => []
  | expr :: rest => dump expr :: dumpList rest

def dumpOption : Option TypedExpr → String
  | none => Dump.optional none
  | some expr => Dump.optional (some (dump expr))

end

end TypedExpr

end RankPoly
