import RankPoly.Session.Store
import RankPoly.Ty.Combine

namespace RankPoly

-- What is known inside of a function: the local name of each of its variables,
-- the types of the locals, and the type returned so far.
structure Locals where
  names : NameMap String := []
  env : NameMap Ty := []
  returnType : Option Ty := none

-- Work on one function within a session.
abbrev Annotate (α : Type) := StateT Locals Session α

namespace Annotate

-- What an annotation asks of its surroundings.
structure Context where
  loopLimit : Nat
  invoke : Ty → List Ty → Session Ty

def ofTy {α : Type} : Except TyError α → Annotate α
  | .ok result => return result
  | .error error => throw (.ofTy error)

def require (condition : Bool) (reason : ShapeError) : Annotate Unit :=
  if condition then return () else throw (.shape reason)

-- A new local for a variable, in place of an earlier one.
def rename (name : String) : Annotate String := do
  let fresh ← Session.refresh name
  modify fun locals => { locals with names := NameMap.insert name fresh locals.names }
  return fresh

-- The local of a variable, a new one if it has none.
def localFor (name : String) : Annotate String := do
  match NameMap.find? name (← get).names with
  | some known => return known
  | none => rename name

-- Joins a type into that of a local. The result is the local's type.
def widen (name : String) (ty : Ty) : Annotate Ty := do
  let widened ←
    match NameMap.find? name (← get).env with
    | some known => ofTy (known.combine ty)
    | none => pure ty
  modify fun locals => { locals with env := NameMap.insert name widened locals.env }
  return widened

-- The local and the type of a variable that is read. A variable of unknown
-- type counts as unbound.
def read (name : String) : Annotate (String × Ty) := do
  let locals ← get
  match NameMap.find? name locals.names with
  | none => throw (.unboundName name)
  | some known =>
    match NameMap.find? known locals.env with
    | none | some .unknown => throw (.unboundName name)
    | some ty => return (known, ty)

-- Joins a type into the type returned.
def returns (ty : Ty) : Annotate Unit := do
  let widened ←
    match (← get).returnType with
    | some known => ofTy (known.combine ty)
    | none => pure ty
  modify fun locals => { locals with returnType := some widened }

end Annotate

-- Every local bound in the first environment has the same type in the second.
def NameMap.extendedBy (earlier later : NameMap Ty) : Bool :=
  earlier.all fun entry => later.find? entry.1 = some entry.2

end RankPoly
