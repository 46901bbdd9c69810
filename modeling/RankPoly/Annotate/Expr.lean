import RankPoly.Annotate.Apply

namespace RankPoly.Annotate

mutual

-- The type of an expression by those of its parts, which come first and from
-- left to right.
def expr (ctx : Context) : Expr → Annotate TypedExpr
  | .var name => do
    let (known, ty) ← read name
    return .var known ty
  | .const value => return .const value value.ty
  | .tuple elems => do
    let elems ← exprs ctx elems
    return .tuple elems (.tuple (typesOf elems))
  | .array elems => do
    require (!elems.isEmpty) .emptyArray
    let elems ← exprs ctx elems
    let elem ← ofTy (Ty.combineAll (typesOf elems))
    let ty ← ofTy (elem.increaseRank 1)
    return .array elems ty
  | .index value selector => do
    let value ← expr ctx value
    match value.ty with
    | .tuple elems => projectFrom value elems selector
    | _ =>
      let selector ← expr ctx selector
      let ty ← ofTy (value.ty.indexType selector.ty)
      return .index value selector ty
  | .slice start stop step => do
    let start ← expr ctx start
    let stop ← expr ctx stop
    let step ← expr ctx step
    return .slice start stop step (.slice start.ty stop.ty step.ty)
  | .attribute value name => do
    let value ← expr ctx value
    let ty ← fieldType value.ty name
    return .attribute value name ty
  | .prim op args => do
    let args ← exprs ctx args
    applyPrim ctx op args
  | .closure func captured => do
    if !(← Session.isRegistered func) then throw (.unknownFunc func)
    let captured ← exprs ctx captured
    return .closure func captured (.closure ⟨func, typesOf captured⟩)
  | .invoke callee args => do
    let callee ← requireCallable (← expr ctx callee)
    let args ← exprs ctx args
    let ty ← ctx.invoke callee.ty (typesOf args)
    return .invoke callee args ty
  | .map callee args axis => do
    let axis ← constAxis axis
    let callee ← requireCallable (← expr ctx callee)
    let args ← exprs ctx args
    applyMap ctx callee args axis
  | .fold kind callee args axis init combiner => do
    if init.isSome then throw (.unsupported (.initialValue kind))
    match args with
    | [arg] =>
      let axis ← constAxis axis
      let callee ← requireCallable (← expr ctx callee)
      let combiner ← optionalCallee ctx combiner
      let arg ← expr ctx arg
      applyFold ctx kind callee combiner arg axis
    | args => throw (.unsupported (.foldOperands kind args.length))
  | .allPairs callee args axis => do
    match args with
    | [lhs, rhs] =>
      let axis ← constAxis axis
      let callee ← requireCallable (← expr ctx callee)
      let lhs ← expr ctx lhs
      let rhs ← expr ctx rhs
      applyAllPairs ctx callee lhs rhs axis
    | args => throw (.shape (.pairOperands args.length))

def exprs (ctx : Context) : List Expr → Annotate (List TypedExpr)
  | [] => return []
  | first :: rest => do
    let first ← expr ctx first
    let rest ← exprs ctx rest
    return first :: rest

def optionalCallee (ctx : Context) : Option Expr → Annotate (Option TypedExpr)
  | none => return none
  | some callee => do
    let callee ← requireCallable (← expr ctx callee)
    return some callee

end

end RankPoly.Annotate
