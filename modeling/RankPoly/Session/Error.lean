import RankPoly.Expr.Dump
import RankPoly.Func.Params
import RankPoly.Ty.Error

namespace RankPoly

-- How types can fail to fit an operation.
inductive ShapeError where
  | typing (error : TyError)
  | binding (error : BindError)
  | emptyArray
  | noAttribute (ty : Ty) (name : String)
  | slotNotConstant
  | slotRange (slot : Int) (arity : Nat)
  | operandCount (op : Prim) (given : Nat)
  | operandTypes (op : Prim) (tys : List Ty)
  | pairOperands (given : Nat)
  | axisRange (axis rank : Nat)
  | condition (ty : Ty)
  | destructure (ty : Ty) (names : Nat)
  | elementOf (ty : Ty)
  | store (value slot : Ty)
  | target (expr : Expr)

-- What a function may ask for, but not get.
inductive Unsupported where
  | initialValue (kind : Fold)
  | foldOperands (kind : Fold) (given : Nat)
  | accumulator (expected found : Ty)
  | axis (expr : Expr)
  | unsettledLoop (passes : Nat)
  | pass (name : String)

-- Why there is no specialization.
inductive SpecializeError where
  | notCallable (ty : Ty)
  | unboundName (name : String)
  | conflict (lhs rhs : Ty)
  | shape (reason : ShapeError)
  | unsupported (reason : Unsupported)
  | unresolvable (ty : Ty)
  | unknownFunc (name : String)
  | duplicateFunc (name : String)
  | recursive (func : String) (args : List Ty)

def ShapeError.message : ShapeError → String
  | .typing error => error.message
  | .binding error => error.message
  | .emptyArray => "empty array literal has no element type"
  | .noAttribute ty name => ty.render ++ " has no attribute `" ++ name ++ "`"
  | .slotNotConstant => "tuple index must be a constant integer"
  | .slotRange slot arity =>
    "index " ++ toString slot ++ " out of range for tuple of length " ++ toString arity
  | .operandCount op given =>
    op.name ++ " takes " ++ toString op.arity ++ " arguments, got " ++ toString given
  | .operandTypes op tys => op.name ++ " cannot be applied to (" ++ Ty.renderList tys ++ ")"
  | .pairOperands given => "all_pairs takes 2 inputs, got " ++ toString given
  | .axisRange axis rank =>
    "axis " ++ toString axis ++ " out of range for arguments of rank " ++ toString rank
  | .condition ty => "condition must be a scalar, got " ++ ty.render
  | .destructure ty names =>
    "cannot destructure " ++ ty.render ++ " into " ++ toString names ++ " names"
  | .elementOf ty => "cannot assign into an element of " ++ ty.render
  | .store value slot =>
    "cannot store " ++ value.render ++ " into a slot of type " ++ slot.render
  | .target expr => "cannot assign to " ++ expr.dump

def Unsupported.message : Unsupported → String
  | .initialValue kind => kind.dump ++ " with an explicit initial value"
  | .foldOperands kind given => kind.dump ++ " over " ++ toString given ++ " inputs"
  | .accumulator expected found =>
    "accumulator of type " ++ expected.render ++ " combines to " ++ found.render
  | .axis expr => "non-constant or negative axis " ++ expr.dump
  | .unsettledLoop passes =>
    "loop types did not settle within " ++ toString passes ++ " passes"
  | .pass name => "pass on " ++ name

def SpecializeError.message : SpecializeError → String
  | .notCallable ty => "expected a closure to invoke, found " ++ ty.render
  | .unboundName name => "name not found: " ++ name
  | .conflict lhs rhs => "type conflict: cannot combine " ++ lhs.render ++ " with " ++ rhs.render
  | .shape reason => "shape error: " ++ reason.message
  | .unsupported reason => "not implemented: " ++ reason.message
  | .unresolvable ty => "cannot resolve an invocation of " ++ ty.render
  | .unknownFunc name => "unknown function: " ++ name
  | .duplicateFunc name => "a different function is already registered as " ++ name
  | .recursive func args =>
    "recursive specialization of " ++ func ++ " for (" ++ Ty.renderList args ++ ")"

-- A conflict keeps its two types, all other failures are failures of shape.
def SpecializeError.ofTy : TyError → SpecializeError
  | .conflict lhs rhs => .conflict lhs rhs
  | error => .shape (.typing error)

end RankPoly
