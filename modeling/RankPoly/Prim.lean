import RankPoly.Scalar

namespace RankPoly

-- The operators on scalars. Arrays are left to those who apply them.
inductive Prim where
  | add
  | sub
  | mul
  | div
  | mod
  | pow
  | max
  | min
  | eq
  | notEq
  | lt
  | ltE
  | gt
  | gtE
  | and
  | or
  | not
  | neg
  | abs
  | sqrt
  | exp
  | log
  | sin
  | cos
  deriving DecidableEq, Repr

namespace Prim

def all : List Prim :=
  [.add, .sub, .mul, .div, .mod, .pow, .max, .min, .eq, .notEq, .lt, .ltE, .gt, .gtE, .and, .or,
    .not, .neg, .abs, .sqrt, .exp, .log, .sin, .cos]

def name : Prim → String
  | .add => "add"
  | .sub => "sub"
  | .mul => "mul"
  | .div => "div"
  | .mod => "mod"
  | .pow => "pow"
  | .max => "max"
  | .min => "min"
  | .eq => "eq"
  | .notEq => "not_eq"
  | .lt => "lt"
  | .ltE => "lt_e"
  | .gt => "gt"
  | .gtE => "gt_e"
  | .and => "and"
  | .or => "or"
  | .not => "not"
  | .neg => "neg"
  | .abs => "abs"
  | .sqrt => "sqrt"
  | .exp => "exp"
  | .log => "log"
  | .sin => "sin"
  | .cos => "cos"

def ofName? (text : String) : Option Prim :=
  all.find? fun prim => prim.name = text

-- The name as one capitalised word.
def dump : Prim → String
  | .notEq => "NotEq"
  | .ltE => "LtE"
  | .gtE => "GtE"
  | prim => prim.name.capitalize

def arity : Prim → Nat
  | .not | .neg | .abs | .sqrt | .exp | .log | .sin | .cos => 1
  | _ => 2

-- The kinds joined from left to right.
def join : List Scalar → Scalar
  | [] => .bool
  | first :: rest => rest.foldl Scalar.promote first

-- The float kind an operation computes in: that of float operands, else `f64`.
def floatJoin (kinds : List Scalar) : Scalar :=
  if (join kinds).isFloat then join kinds else .f64

-- The kinds that operands are converted to before the operation.
def inputs (prim : Prim) (kinds : List Scalar) : List Scalar :=
  match prim with
  | .add | .sub | .mul | .mod | .pow | .max | .min | .eq | .notEq | .lt | .ltE | .gt | .gtE =>
    kinds.map fun _ => join kinds
  | .div | .sqrt | .exp | .log | .sin | .cos => kinds.map fun _ => floatJoin kinds
  | .and | .or | .not => kinds.map fun _ => .bool
  | .neg | .abs => kinds

-- The kind of the result, by the converted operands.
def resultOf (prim : Prim) (inputs : List Scalar) : Scalar :=
  match prim with
  | .eq | .notEq | .lt | .ltE | .gt | .gtE | .and | .or | .not => .bool
  | _ => inputs.headD .bool

def result (prim : Prim) (kinds : List Scalar) : Scalar :=
  prim.resultOf (prim.inputs kinds)

end Prim

end RankPoly
