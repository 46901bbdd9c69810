import RankPoly.Annotate.Locals
import RankPoly.Ty.Rank

namespace RankPoly.Annotate

-- Only closures can be called.
def requireCallable (callee : TypedExpr) : Annotate TypedExpr :=
  if callee.ty.isCallable then return callee else throw (.notCallable callee.ty)

def typesOf (exprs : List TypedExpr) : List Ty :=
  exprs.map TypedExpr.ty

-- The type of a field, which has to exist.
def fieldType (ty : Ty) (name : String) : Annotate Ty :=
  match ty.field? name with
  | some field => return field
  | none => throw (.shape (.noAttribute ty name))

-- The slot that an index counts from the start or, if negative, from the end.
def slot? (index : Int) (arity : Nat) : Option Nat :=
  let position := if index < 0 then index + arity else index
  if 0 ≤ position ∧ position < arity then some position.toNat else none

-- Indexing a tuple, which takes a literal.
def projectFrom (value : TypedExpr) (elems : List Ty) : Expr → Annotate TypedExpr
  | .const (.int index) =>
    match slot? index elems.length with
    | some slot =>
      match elems[slot]? with
      | some ty => return .project value slot ty
      | none => throw (.shape (.slotRange index elems.length))
    | none => throw (.shape (.slotRange index elems.length))
  | _ => throw (.shape .slotNotConstant)

-- The kind of a scalar or of the elements of an array.
def elementKind? (ty : Ty) : Option Scalar :=
  ty.elementType.scalar?

-- Applies an operator. With an array among the operands it becomes a map of
-- the operator's wrapper over all of them.
def applyPrim (ctx : Context) (op : Prim) (args : List TypedExpr) : Annotate TypedExpr := do
  require (args.length = op.arity) (.operandCount op args.length)
  let tys := typesOf args
  match tys.mapM Ty.scalar? with
  | some kinds => return .prim op args (.scalar (op.result kinds))
  | none =>
    match tys.mapM elementKind? with
    | none => throw (.shape (.operandTypes op tys))
    | some kinds =>
      let name ← Session.primWrapper op
      let callee := Ty.closure ⟨name, []⟩
      let elem ← ctx.invoke callee ((op.inputs kinds).map Ty.scalar)
      let ty ← ofTy (elem.increaseRank (Ty.maxRank tys))
      return .map (.closure name [] callee) args none ty

-- The axis an adverb names: none, or a literal that is not negative.
def constAxis : Option Expr → Annotate (Option Nat)
  | none => return none
  | some (.const .none) => return none
  | some (.const (.int axis)) =>
    if 0 ≤ axis then return some axis.toNat
    else throw (.unsupported (.axis (.const (.int axis))))
  | some expr => throw (.unsupported (.axis expr))

-- The number of outer axes that an adverb goes over, and the axis it records.
def outerAxes (axis : Option Nat) (rank : Nat) : Annotate (Nat × Option Nat) :=
  match axis with
  | some axis =>
    if axis < rank then return (1, some axis) else throw (.shape (.axisRange axis rank))
  | none => return if rank = 1 then (1, some 0) else (0, none)

-- Applies a function at all positions along the outer axes.
def applyMap (ctx : Context) (callee : TypedExpr) (args : List TypedExpr)
    (axis : Option Nat) : Annotate TypedExpr := do
  let tys := typesOf args
  let (count, axis) ← outerAxes axis (Ty.maxRank tys)
  let nested ← ofTy (Ty.lowerRanks tys count)
  let elem ← ctx.invoke callee.ty nested
  let ty ← ofTy (elem.increaseRank count)
  return .map callee args axis ty

-- A function of two values of a type has to give that type again.
def requireFixedPoint (ctx : Context) (callee : TypedExpr) (acc : Ty) : Annotate Unit := do
  let result ← ctx.invoke callee.ty [acc, acc]
  if result = acc then return () else throw (.unsupported (.accumulator acc result))

-- Folds a function, and perhaps a combiner, over the outer axes.
def applyFold (ctx : Context) (kind : Fold) (callee : TypedExpr) (combiner : Option TypedExpr)
    (arg : TypedExpr) (axis : Option Nat) : Annotate TypedExpr := do
  let (count, axis) ← outerAxes axis arg.ty.rank
  let acc ← ofTy (arg.ty.lowerRank count)
  requireFixedPoint ctx callee acc
  if let some combiner := combiner then requireFixedPoint ctx combiner acc
  let ty ←
    match kind with
    | .reduce => pure acc
    | .scan => ofTy (acc.increaseRank count)
  return .fold kind callee arg axis combiner ty

-- Applies a function to all pairs of positions. Without an axis these are the
-- elements.
def applyAllPairs (ctx : Context) (callee lhs rhs : TypedExpr) (axis : Option Nat) :
    Annotate TypedExpr := do
  let tys := [lhs.ty, rhs.ty]
  let rank := Ty.maxRank tys
  let (nested, axis) ←
    match axis with
    | none => pure (Ty.elementTypes tys, if rank = 1 then some 0 else none)
    | some axis => do
      let (count, axis) ← outerAxes (some axis) rank
      pure (← ofTy (Ty.lowerRanks tys count), axis)
  let elem ← ctx.invoke callee.ty nested
  let ty ← ofTy (elem.increaseRank 2)
  return .allPairs callee lhs rhs axis ty

end RankPoly.Annotate
