import RankPoly.Dump
import RankPoly.Expr.Basic

namespace RankPoly

def Fold.dump : Fold → String
  | .reduce => "Reduce"
  | .scan => "Scan"

namespace Expr

mutual

def dump : Expr → String
  | .var name => Dump.form "Var" [name]
  | .const value => value.dump
  | .tuple elems => Dump.form "Tuple" [Dump.list (dumpList elems)]
  | .array elems => Dump.form "Array" [Dump.list (dumpList elems)]
  | .index value selector =>
    Dump.record "Index" [("value", dump value), ("index", dump selector)]
  | .slice start stop step =>
    Dump.record "Slice" [("start", dump start), ("stop", dump stop), ("step", dump step)]
  | .attribute value name =>
    Dump.record "Attribute" [("value", dump value), ("name", Text.quote name)]
  | .prim op args =>
    Dump.record "PrimCall" [("prim", op.dump), ("args", Dump.list (dumpList args))]
  | .closure func captured =>
    Dump.record "Closure" [("func", func), ("args", Dump.list (dumpList captured))]
  | .invoke callee args =>
    Dump.record "Invoke" [("closure", dump callee), ("args", Dump.list (dumpList args))]
  | .map callee args axis =>
    Dump.record "Map"
      [("func", dump callee), ("args", Dump.list (dumpList args)), ("axis", dumpOption axis)]
  | .fold kind callee args axis init combiner =>
    Dump.record kind.dump
      [("func", dump callee), ("args", Dump.list (dumpList args)), ("axis", dumpOption axis),
        ("init", dumpOption init), ("combine", dumpOption combiner)]
  | .allPairs callee args axis =>
    Dump.record "AllPairs"
      [("func", dump callee), ("args", Dump.list (dumpList args)), ("axis", dumpOption axis)]

def dumpList : List Expr → List String
  | [] => []
  | expr :: rest => dump expr :: dumpList rest

def dumpOption : Option Expr → String
  | none => Dump.optional none
  | some expr => Dump.optional (some (dump expr))

end

end Expr

end RankPoly
