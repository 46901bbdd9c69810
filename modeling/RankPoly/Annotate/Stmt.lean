import RankPoly.Annotate.Expr

namespace RankPoly.Annotate

-- Conditions are scalars of any kind.
def condition (ctx : Context) (cond : Expr) : Annotate TypedExpr := do
  let cond ← expr ctx cond
  require cond.ty.isScalar (.condition cond.ty)
  return cond

-- Storing into an element may broadcast the value, but not the slot.
def storeInto (value selector : TypedExpr) (stored : Ty) : Annotate TypedExpr := do
  let slot ← ofTy (value.ty.indexType selector.ty)
  require (stored.rank ≤ slot.rank) (.store stored slot)
  let _ ← ofTy (slot.elementType.combine stored.elementType)
  return .index value selector slot

mutual

-- What is assigned to, given the type of the value.
def target (ctx : Context) (lhs : Expr) (rhs : Ty) : Annotate TypedExpr :=
  match lhs with
  | .var name => do
    let known ← localFor name
    let ty ← widen known rhs
    return .var known ty
  | .tuple parts => do
    match rhs with
    | .tuple elems =>
      require (elems.length = parts.length) (.destructure rhs parts.length)
      let parts ← targets ctx parts elems
      return .tuple parts (.tuple (typesOf parts))
    | _ => throw (.shape (.destructure rhs parts.length))
  | .index value selector => do
    let value ← expr ctx value
    require value.ty.isArray (.elementOf value.ty)
    let selector ← expr ctx selector
    storeInto value selector rhs
  | .attribute value name => do
    let value ← expr ctx value
    let field ← fieldType value.ty name
    let _ ← ofTy (field.combine rhs)
    return .attribute value name field
  | other => throw (.shape (.target other))
  termination_by structural lhs

def targets (ctx : Context) (parts : List Expr) (elems : List Ty) :
    Annotate (List TypedExpr) :=
  match parts, elems with
  | part :: parts, elem :: elems => do
    let part ← target ctx part elem
    let parts ← targets ctx parts elems
    return part :: parts
  | _, _ => return []
  termination_by structural parts

end

-- The merges behind a branch bind their variables to both values.
def branchMerges (ctx : Context) : List (Merge Expr) → Annotate (List (Merge TypedExpr))
  | [] => return []
  | merge :: rest => do
    let left ← expr ctx merge.left
    let right ← expr ctx merge.right
    let var ← localFor merge.var
    let both ← ofTy (left.ty.combine right.ty)
    let _ ← widen var both
    let rest ← branchMerges ctx rest
    return { var, left, right } :: rest

-- The values that enter a loop, with the locals that they are bound to.
def enterLoop (ctx : Context) : List (Merge Expr) → Annotate (List (String × TypedExpr))
  | [] => return []
  | merge :: rest => do
    let left ← expr ctx merge.left
    let var ← localFor merge.var
    let _ ← widen var left.ty
    let rest ← enterLoop ctx rest
    return (var, left) :: rest

-- The values that come back from the end of a loop's body.
def closeLoop (ctx : Context) :
    List (Merge Expr) → List (String × TypedExpr) → Annotate (List (Merge TypedExpr))
  | merge :: merges, (var, left) :: entries => do
    let right ← expr ctx merge.right
    let _ ← widen var right.ty
    let rest ← closeLoop ctx merges entries
    return { var, left, right } :: rest
  | _, _ => return []

-- One pass over a loop. The loop is settled if no local that was bound when
-- its condition was looked at has changed since.
def loopPass (ctx : Context) (cond : Expr) (body : Annotate (List TypedStmt))
    (merges : List (Merge Expr)) : Annotate (TypedStmt × Bool) := do
  let entries ← enterLoop ctx merges
  let before := (← get).env
  let cond ← condition ctx cond
  let body ← body
  let merges ← closeLoop ctx merges entries
  let settled := before.extendedBy (← get).env
  return (.loop cond body merges, settled)

-- Passes over a loop until one of them settles it.
def settle (limit : Nat) (pass : Annotate (TypedStmt × Bool)) : (left : Nat) → Annotate TypedStmt
  | 0 => throw (.unsupported (.unsettledLoop limit))
  | left + 1 => do
    let (stmt, settled) ← pass
    if settled then return stmt else settle limit pass left

mutual

def stmt (ctx : Context) : Stmt Expr → Annotate TypedStmt
  | .assign lhs rhs => do
    let rhs ← expr ctx rhs
    let lhs ← target ctx lhs rhs.ty
    return .assign lhs rhs
  | .branch cond onTrue onFalse merges => do
    let cond ← condition ctx cond
    let onTrue ← block ctx onTrue
    let onFalse ← block ctx onFalse
    let merges ← branchMerges ctx merges
    return .branch cond onTrue onFalse merges
  | .loop cond body merges =>
    settle ctx.loopLimit (loopPass ctx cond (block ctx body) merges) ctx.loopLimit
  | .ret value => do
    let value ← expr ctx value
    returns value.ty
    return .ret value

def block (ctx : Context) : List (Stmt Expr) → Annotate (List TypedStmt)
  | [] => return []
  | first :: rest => do
    let first ← stmt ctx first
    let rest ← block ctx rest
    return first :: rest

end

end RankPoly.Annotate
