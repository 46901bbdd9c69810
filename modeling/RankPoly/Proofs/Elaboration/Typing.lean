import RankPoly.Proofs.Elaboration.Basic
import RankPoly.Proofs.Session.Answer

namespace RankPoly

open Annotate (typesOf givenAxis)

namespace Annotate

-- The number of axes that a map or a fold goes along, by the axis it records.
def axisCount : Option Nat → Nat
  | some _ => 1
  | none => 0

-- The types that a function is called with for all pairs.
inductive PairTypes (tys : List Ty) : Option Nat → List Ty → Prop where
  | elements : PairTypes tys none (Ty.elementTypes tys)
  | along {axis : Nat} {nested : List Ty} : axis < Ty.maxRank tys →
      Ty.lowerRanks tys 1 = .ok nested → PairTypes tys (some axis) nested

end Annotate

open Annotate (axisCount PairTypes)

-- A node of an expression has the type that its parts give it, where calls are
-- answered by the specializations that are kept.
inductive NodeTyped (store : Store) : Expr → TypedExpr → Prop where
  | var {e : Expr} {known : String} {ty : Ty} : NodeTyped store e (.var known ty)
  | const {e : Expr} {value : Const} : NodeTyped store e (.const value value.ty)
  | tuple {e : Expr} {ts : List TypedExpr} : NodeTyped store e (.tuple ts (.tuple (typesOf ts)))
  | array {e : Expr} {ts : List TypedExpr} {elem ty : Ty} :
      Ty.combineAll (typesOf ts) = .ok elem → elem.increaseRank 1 = .ok ty →
      NodeTyped store e (.array ts ty)
  | index {e : Expr} {t j : TypedExpr} {ty : Ty} : t.ty.indexType j.ty = .ok ty →
      NodeTyped store e (.index t j ty)
  | project {e : Expr} {t : TypedExpr} {slot : Nat} {elems : List Ty} {ty : Ty} :
      t.ty = .tuple elems → elems[slot]? = some ty → NodeTyped store e (.project t slot ty)
  | slice {e : Expr} {a b c : TypedExpr} :
      NodeTyped store e (.slice a b c (.slice a.ty b.ty c.ty))
  | field {e : Expr} {t : TypedExpr} {name : String} {fields : List (String × Ty)} {ty : Ty} :
      t.ty = .struct fields → NameMap.find? name fields = some ty →
      NodeTyped store e (.attribute t name ty)
  | prim {e : Expr} {op : Prim} {ts : List TypedExpr} {kinds : List Scalar} :
      ts.length = op.arity → typesOf ts = kinds.map Ty.scalar →
      NodeTyped store e (.prim op ts (.scalar (op.result kinds)))
  -- The wrapper is called with the elements as the operator takes them. If its
  -- name stands for the wrapper, the elements of the result are the operator's.
  | lift {op : Prim} {es : List Expr} {callee : TypedExpr} {ts : List TypedExpr} {func : Func}
      {kinds : List Scalar} {elem ty : Ty} : ts.length = op.arity →
      (Ty.elementTypes (typesOf ts)) = kinds.map Ty.scalar →
      store.funcs.find? (Session.wrapperName op) = some func →
      answer store.result? callee.ty ((op.inputs kinds).map Ty.scalar) = some elem →
      elem.increaseRank (Ty.maxRank (typesOf ts)) = .ok ty →
      (func = Session.wrapper op → ty = Ty.ofRank (op.result kinds) (Ty.maxRank (typesOf ts))) →
      NodeTyped store (.prim op es) (.map callee ts none ty)
  | closure {e : Expr} {func : String} {ts : List TypedExpr} :
      store.funcs.contains func = true →
      NodeTyped store e (.closure func ts (.closure ⟨func, typesOf ts⟩))
  | invoke {e : Expr} {callee : TypedExpr} {ts : List TypedExpr} {ty : Ty} :
      answer store.result? callee.ty (typesOf ts) = some ty →
      NodeTyped store e (.invoke callee ts ty)
  | map {f : Expr} {es : List Expr} {operand : Option Expr} {callee : TypedExpr}
      {ts : List TypedExpr} {axis : Option Nat} {nested : List Ty} {elem ty : Ty} :
      (∀ i ∈ axis, i < Ty.maxRank (typesOf ts)) →
      Ty.lowerRanks (typesOf ts) (axisCount axis) = .ok nested →
      answer store.result? callee.ty nested = some elem →
      elem.increaseRank (axisCount axis) = .ok ty →
      NodeTyped store (.map f es operand) (.map callee ts axis ty)
  -- What is folded with keeps the type of what has been folded so far.
  | reduce {e : Expr} {callee t : TypedExpr} {axis : Option Nat} {combiner : Option TypedExpr}
      {acc : Ty} : (∀ i ∈ axis, i < t.ty.rank) → t.ty.lowerRank (axisCount axis) = .ok acc →
      (∀ f ∈ callee :: combiner.toList, answer store.result? f.ty [acc, acc] = some acc) →
      NodeTyped store e (.fold .reduce callee t axis combiner acc)
  | scan {e : Expr} {callee t : TypedExpr} {axis : Option Nat} {combiner : Option TypedExpr}
      {acc ty : Ty} : (∀ i ∈ axis, i < t.ty.rank) → t.ty.lowerRank (axisCount axis) = .ok acc →
      (∀ f ∈ callee :: combiner.toList, answer store.result? f.ty [acc, acc] = some acc) →
      acc.increaseRank (axisCount axis) = .ok ty →
      NodeTyped store e (.fold .scan callee t axis combiner ty)
  | allPairs {f : Expr} {es : List Expr} {operand : Option Expr} {callee a b : TypedExpr}
      {given axis : Option Nat} {nested : List Ty} {elem ty : Ty} :
      givenAxis operand = some given → PairTypes [a.ty, b.ty] given nested →
      answer store.result? callee.ty nested = some elem → elem.increaseRank 2 = .ok ty →
      NodeTyped store (.allPairs f es operand) (.allPairs callee a b axis ty)

-- Nothing that a node rests on is ever taken back.
theorem NodeTyped.mono {store later : Store} (h : store.Grows later) ⦃e : Expr⦄ ⦃t : TypedExpr⦄
    (ht : NodeTyped store e t) : NodeTyped later e t := by
  cases ht with
  | var => exact .var
  | const => exact .const
  | tuple => exact .tuple
  | array helem hty => exact .array helem hty
  | index hty => exact .index hty
  | project helems hty => exact .project helems hty
  | slice => exact .slice
  | field hfields hty => exact .field hfields hty
  | prim harity hkinds => exact .prim harity hkinds
  | lift harity hkinds hfunc helem hty hwrapper =>
      exact .lift harity hkinds (h.funcs hfunc) (h.answer helem) hty hwrapper
  | closure hfunc => exact .closure (h.contains hfunc)
  | invoke hty => exact .invoke (h.answer hty)
  | map haxis hnested helem hty => exact .map haxis hnested (h.answer helem) hty
  | reduce haxis hacc hcalls => exact .reduce haxis hacc fun f hf => h.answer (hcalls f hf)
  | scan haxis hacc hcalls hty => exact .scan haxis hacc (fun f hf => h.answer (hcalls f hf)) hty
  | allPairs hgiven hnested helem hty => exact .allPairs hgiven hnested (h.answer helem) hty

end RankPoly
