import RankPoly.Ty.Combine
import RankPoly.Typed.Basic

namespace RankPoly

def Fold.name : Fold → String
  | .reduce => "reduce"
  | .scan => "scan"

namespace TypedExpr

def call (callee : String) (args : List String) : String :=
  callee ++ "(" ++ Text.commaSeparated args ++ ")"

def axisPart (axis : Option Nat) : List String :=
  (axis.map fun axis => "axis=" ++ toString axis).toList

mutual

-- An expression as it is written in a function, without its type.
def render : TypedExpr → String
  | .var name _ => name
  | .const value _ => value.render
  | .tuple [elem] _ => "(" ++ render elem ++ ",)"
  | .tuple elems _ => call "" (renderList elems)
  | .array elems _ => "[" ++ Text.commaSeparated (renderList elems) ++ "]"
  | .index value selector _ => render value ++ "[" ++ render selector ++ "]"
  | .project value slot _ => render value ++ "." ++ toString slot
  | .slice start stop step _ => render start ++ ":" ++ render stop ++ ":" ++ render step
  | .attribute value name _ => render value ++ "." ++ name
  | .prim op args _ => call op.name (renderList args)
  | .closure func [] _ => func
  | .closure func captured _ => call "closure" (func :: renderList captured)
  | .invoke callee args _ => call (render callee) (renderList args)
  | .map callee args axis _ => call "map" (render callee :: renderList args ++ axisPart axis)
  | .fold kind callee arg axis combiner _ =>
    call kind.name ([render callee, render arg] ++ axisPart axis ++ renderCombiner combiner)
  | .allPairs callee lhs rhs axis _ =>
    call "allpairs" ([render callee, render lhs, render rhs] ++ axisPart axis)

def renderList : List TypedExpr → List String
  | [] => []
  | expr :: rest => render expr :: renderList rest

def renderCombiner : Option TypedExpr → List String
  | none => []
  | some combiner => ["combine=" ++ render combiner]

end

end TypedExpr

namespace TypedStmt

-- A line at a depth of indentation.
def line (depth : Nat) (text : String) : String :=
  String.ofList (List.replicate (4 * depth) ' ') ++ text ++ "\n"

-- The type shown for a merged variable: that of both values together, or that
-- of the left one if they do not fit.
def mergedType (merge : Merge TypedExpr) : Ty :=
  match Ty.combine merge.left.ty merge.right.ty with
  | .ok ty => ty
  | .error _ => merge.left.ty

def renderMerges (depth : Nat) (merges : List (Merge TypedExpr)) : String :=
  String.join <| merges.map fun merge =>
    line depth
      (merge.var ++ " = " ++ TypedExpr.call "phi" [merge.left.render, merge.right.render] ++
        " : " ++ (mergedType merge).render)

mutual

def renderAt (depth : Nat) : TypedStmt → String
  | .assign target value =>
    line depth (target.render ++ " = " ++ value.render ++ " : " ++ value.ty.render)
  | .branch cond onTrue onFalse merges =>
    line depth ("if " ++ cond.render ++ ":") ++ renderBlock (depth + 1) onTrue ++
      line depth "else:" ++ renderBlock (depth + 1) onFalse ++ renderMerges depth merges
  | .loop cond body merges =>
    line depth ("while " ++ cond.render ++ ":") ++ renderMerges (depth + 1) merges ++
      renderBlock (depth + 1) body
  | .ret value => line depth ("return " ++ value.render ++ " : " ++ value.ty.render)

-- The statements of a block, which is never without a line.
def renderBlock (depth : Nat) : List TypedStmt → String
  | [] => line depth "pass"
  | stmts => renderLines depth stmts

def renderLines (depth : Nat) : List TypedStmt → String
  | [] => ""
  | stmt :: rest => renderAt depth stmt ++ renderLines depth rest

end

def render (stmt : TypedStmt) : String :=
  renderAt 0 stmt

end TypedStmt

namespace Specialization

def renderParam (env : NameMap Ty) (name : String) : String :=
  match env.find? name with
  | some ty => name ++ ": " ++ ty.render
  | none => name

-- The head of the function with the types of its parameters, and its body.
def render (spec : Specialization) : String :=
  "def " ++ TypedExpr.call spec.name (spec.params.names.map (renderParam spec.env)) ++ " -> " ++
    spec.returnType.render ++ ":\n" ++ TypedStmt.renderBlock 1 spec.body

end Specialization

end RankPoly
