import RankPoly.Fresh
import RankPoly.Session.Error
import RankPoly.Typed.Basic

namespace RankPoly

-- A function asked for at a list of argument types.
structure Request where
  func : String
  args : List Ty
  deriving DecidableEq

-- A call of a closure, or of a set of closures, with argument types.
structure Call where
  callee : Ty
  args : List Ty
  deriving DecidableEq

-- How much work was done, and how much of it was found done already.
structure Counters where
  inferences : Nat := 0
  cacheHits : Nat := 0
  memoHits : Nat := 0
  coercionRuns : Nat := 0
  optimizerRuns : Nat := 0
  deriving DecidableEq, Repr

-- All that is known about functions: their definitions, the specializations
-- built so far and the types of the calls made so far, newest first. Nothing
-- is ever taken away.
structure Store where
  funcs : NameMap Func := []
  built : List (Request × Specialization) := []
  calls : List (Call × Ty) := []
  fresh : Fresh := {}
  counters : Counters := {}

namespace Store

def specialization? (store : Store) (request : Request) : Option Specialization :=
  (store.built.find? fun entry => entry.1 = request).map Prod.snd

def callType? (store : Store) (call : Call) : Option Ty :=
  (store.calls.find? fun entry => entry.1 = call).map Prod.snd

end Store

-- Work on a store. What a failure leaves behind stays in it.
abbrev Session (α : Type) := ExceptT SpecializeError (StateM Store) α

namespace Session

def count (change : Counters → Counters) : Session Unit :=
  modify fun store => { store with counters := change store.counters }

-- Adds a function under its name. The same function may be added again.
def register (func : Func) : Session Func := do
  match NameMap.find? func.name (← get).funcs with
  | some known => if known.same func then return known else throw (.duplicateFunc func.name)
  | none =>
    modify fun store => { store with funcs := NameMap.insert func.name func store.funcs }
    return func

def lookup (name : String) : Session Func := do
  match NameMap.find? name (← get).funcs with
  | some func => return func
  | none => throw (.unknownFunc name)

def isRegistered (name : String) : Session Bool := do
  return NameMap.contains (← get).funcs name

def refresh (name : String) : Session String := do
  let (name, fresh) := (← get).fresh.refresh name
  modify fun store => { store with fresh }
  return name

-- The specialization for a request, if it has been built.
def cached (request : Request) : Session (Option Specialization) := do
  match (← get).specialization? request with
  | some spec =>
    count fun counters => { counters with cacheHits := counters.cacheHits + 1 }
    return some spec
  | none => return none

-- Keeps a specialization. One that is there already is not replaced.
def keep (request : Request) (spec : Specialization) : Session Specialization := do
  match (← get).specialization? request with
  | some known => return known
  | none =>
    modify fun store => { store with built := (request, spec) :: store.built }
    return spec

-- The type of a call, if it has been made.
def remembered (call : Call) : Session (Option Ty) := do
  match (← get).callType? call with
  | some ty =>
    count fun counters => { counters with memoHits := counters.memoHits + 1 }
    return some ty
  | none => return none

def remember (call : Call) (ty : Ty) : Session Unit :=
  modify fun store => { store with calls := (call, ty) :: store.calls }

def wrapperName (op : Prim) : String :=
  "prim_" ++ op.name

-- The function that applies an operator to its parameters.
def wrapper (op : Prim) : Func :=
  let names := (List.range op.arity).map fun i => "x" ++ toString i
  { name := wrapperName op
    params := { positional := names }
    body := [.ret (.prim op (names.map Expr.var))] }

-- The name of an operator's wrapper, which is added when first asked for.
def primWrapper (op : Prim) : Session String := do
  if ← isRegistered (wrapperName op) then return wrapperName op
  let func ← register (wrapper op)
  return func.name

end Session

end RankPoly
