import RankPoly.Const

namespace RankPoly

-- The parameters of a function. A default stands in for a missing argument,
-- and `varargs` takes all that are left over.
structure Params where
  positional : List String
  defaults : NameMap Const := []
  varargs : Option String := none

-- Why arguments do not fit parameters.
inductive BindError where
  | missing (name : String)
  | tooMany (expected given : Nat)
  deriving DecidableEq

def BindError.message : BindError → String
  | .missing name => "missing argument for parameter `" ++ name ++ "`"
  | .tooMany expected given =>
    "expected at most " ++ toString expected ++ " arguments, got " ++ toString given

-- The type of every parameter, varargs last, and the types of all arguments
-- once defaults have taken their places.
structure Binding where
  params : List (String × Ty)
  inputs : List Ty

namespace Params

def withDefault (params : Params) (name : String) (value : Const) : Params :=
  { params with defaults := params.defaults.insert name value }

-- All names that are bound, varargs last.
def names (params : Params) : List String :=
  params.positional ++ params.varargs.toList

-- Parameters that agree up to how equal defaults are written.
def same (lhs rhs : Params) : Bool :=
  lhs.positional = rhs.positional && lhs.varargs = rhs.varargs &&
    lhs.defaults.keys = rhs.defaults.keys &&
    (lhs.defaults.zip rhs.defaults).all fun pair => pair.1.2.same pair.2.2

-- The type of each positional parameter, and the arguments that are left over.
def bindPositional (defaults : NameMap Const) :
    List String → List Ty → Except BindError (List (String × Ty) × List Ty)
  | [], surplus => .ok ([], surplus)
  | name :: names, ty :: tys => do
    let (bound, surplus) ← bindPositional defaults names tys
    .ok ((name, ty) :: bound, surplus)
  | name :: names, [] =>
    match defaults.find? name with
    | none => .error (.missing name)
    | some value => do
      let (bound, surplus) ← bindPositional defaults names []
      .ok ((name, value.ty) :: bound, surplus)

def bind (params : Params) (args : List Ty) : Except BindError Binding := do
  let (bound, surplus) ← bindPositional params.defaults params.positional args
  match params.varargs with
  | some name =>
    .ok
      { params := bound ++ [(name, .tuple surplus)]
        inputs := bound.map Prod.snd ++ surplus }
  | none =>
    if surplus.isEmpty then .ok { params := bound, inputs := bound.map Prod.snd }
    else .error (.tooMany params.positional.length args.length)

-- The defaults of positional parameters under their new names.
def renameDefaults (defaults : NameMap Const) (pairs : List (String × String)) :
    NameMap Const :=
  NameMap.ofList <| pairs.filterMap fun (old, new) =>
    (defaults.find? old).map fun value => (new, value)

-- The same parameters under other names, asked for from left to right.
def rename {m : Type → Type} [Monad m] (newName : String → m String) (params : Params) :
    m Params := do
  let positional ← params.positional.mapM newName
  let varargs ← params.varargs.mapM newName
  return {
    positional
    defaults := renameDefaults params.defaults (params.positional.zip positional)
    varargs }

end Params

end RankPoly
