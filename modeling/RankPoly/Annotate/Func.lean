import RankPoly.Annotate.Stmt

namespace RankPoly.Annotate

-- Every parameter gets a local of its own.
def bindParams : List (String × Ty) → Annotate Unit
  | [] => return ()
  | (name, ty) :: rest => do
    let known ← rename name
    let _ ← widen known ty
    bindParams rest

def localParams (locals : Locals) (params : Params) : Params :=
  Id.run <| params.rename fun name => pure ((NameMap.find? name locals.names).getD name)

-- A body that never returns a value returns none at its end.
def withReturn (body : List TypedStmt) : Option Ty → List TypedStmt × Ty
  | some ty => (body, ty)
  | none => (body ++ [.ret (.const .none .none)], .none)

def func (ctx : Context) (source : Func) (args : List Ty) : Annotate Specialization := do
  match source.params.bind args with
  | .error error => throw (.shape (.binding error))
  | .ok binding =>
    bindParams binding.params
    let params := localParams (← get) source.params
    let body ← block ctx source.body
    let locals ← get
    let (body, returnType) := withReturn body locals.returnType
    let name ← Session.refresh source.name
    return {
      name
      source := source.name
      params
      body
      inputs := binding.inputs
      returnType
      env := locals.env }

end RankPoly.Annotate

namespace RankPoly

-- Types a function for the types of its arguments.
def Func.annotate (ctx : Annotate.Context) (func : Func) (args : List Ty) :
    Session Specialization :=
  (Annotate.func ctx func args).run' {}

end RankPoly
