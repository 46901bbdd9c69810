import RankPoly.Annotate.Func
import RankPoly.Session.Pass

namespace RankPoly

-- How far a request may go: the passes over a loop, and the specializations
-- that wait for each other.
structure Limits where
  maxLoopIterations : Nat := 32
  maxDepth : Nat := 256
  deriving DecidableEq, Repr

-- What does not change in the course of a session.
structure Settings where
  limits : Limits := {}
  coercion : Pass := .identity
  optimizer : Pass := .identity

namespace Session

def runPass (pass : Pass) (change : Counters → Counters) (spec : Specialization) :
    Session Specialization := do
  count change
  match pass spec with
  | .ok spec => return spec
  | .error error => throw error

-- Builds a specialization, where calls in its body are resolved by `invoke`.
def build (settings : Settings) (invoke : Ty → List Ty → Session Ty) (func : Func)
    (args : List Ty) : Session Specialization := do
  count fun counters => { counters with inferences := counters.inferences + 1 }
  let spec ← func.annotate { loopLimit := settings.limits.maxLoopIterations, invoke } args
  let spec ← runPass settings.coercion
    (fun counters => { counters with coercionRuns := counters.coercionRuns + 1 }) spec
  runPass settings.optimizer
    (fun counters => { counters with optimizerRuns := counters.optimizerRuns + 1 }) spec

-- Joins the results of the closures a call may go to, in their order.
def joinResults (specialize : Request → Session Specialization) (args : List Ty) :
    List Closure → Ty → Session Ty
  | [], joined => return joined
  | member :: rest, joined => do
    let spec ← specialize ⟨member.func, member.captured ++ args⟩
    match joined.combine spec.returnType with
    | .ok joined => joinResults specialize args rest joined
    | .error error => throw (.ofTy error)

-- The type of a call, where functions are specialized by `specialize`.
def invokeWith (specialize : Request → Session Specialization) (callee : Ty)
    (args : List Ty) : Session Ty := do
  match ← remembered ⟨callee, args⟩ with
  | some ty => return ty
  | none =>
    match callee.members? with
    | none => throw (.unresolvable callee)
    | some members =>
      let ty ← joinResults specialize args members .unknown
      remember ⟨callee, args⟩ ty
      return ty

-- Specializes a function while the requests in `waiting` are being served.
-- At most `depth` more may wait.
def specializeWithin (settings : Settings) :
    (depth : Nat) → (waiting : List Request) → Request → Session Specialization
  | 0, _, request => do
    match ← cached request with
    | some spec => return spec
    | none => throw (.recursive request.func request.args)
  | depth + 1, waiting, request => do
    match ← cached request with
    | some spec => return spec
    | none =>
      if request ∈ waiting then throw (.recursive request.func request.args)
      let func ← lookup request.func
      let nested := specializeWithin settings depth (request :: waiting)
      let spec ← build settings (invokeWith nested) func request.args
      keep request spec

-- The specialization of a registered function.
def specialize (settings : Settings) (name : String) (args : List Ty) :
    Session Specialization := do
  if !(← isRegistered name) then throw (.unknownFunc name)
  specializeWithin settings settings.limits.maxDepth [] ⟨name, args⟩

-- The specialization of a function that is registered first.
def specializeFunc (settings : Settings) (func : Func) (args : List Ty) :
    Session Specialization := do
  let known ← register func
  specialize settings known.name args

-- The type that a registered function returns.
def returnType (settings : Settings) (name : String) (args : List Ty) : Session Ty := do
  let spec ← specialize settings name args
  return spec.returnType

-- The type of calling a closure or a set of closures.
def invocationType (settings : Settings) (callee : Ty) (args : List Ty) : Session Ty :=
  invokeWith (specializeWithin settings settings.limits.maxDepth []) callee args

end Session

end RankPoly
