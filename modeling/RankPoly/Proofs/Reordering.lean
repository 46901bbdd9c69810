import RankPoly.Demo
import RankPoly.Proofs.Invocation
import RankPoly.Proofs.Session.Retyped
import RankPoly.Proofs.Ty.Combined

namespace RankPoly

open Annotate (expr exprs typesOf)
open Scalar (Contested)
open Session
open Ty (AllParts Agree Regular ResultsAgree combineAll kindAt)

-- The type of an array literal, by those of its elements.
def Annotate.literalType (tys : List Ty) : Except SpecializeError Ty :=
  if tys.isEmpty then .error (.shape .emptyArray)
  else ((combineAll tys).bind (Ty.increaseRank · 1)).mapError .ofTy

-- What comes of typing an expression.
def Annotate.exprType (ctx : Annotate.Context) (e : Expr) (locals : Locals) (store : Store) :
    Except SpecializeError Ty :=
  (outcome (expr ctx e) locals store).1.map fun result => result.1.ty

section Literals

variable {ctx : Annotate.Context} {locals locals' : Locals} {store later : Store}

theorem Annotate.literalType_perm {tys tys' : List Ty} (hperm : tys.Perm tys')
    (htys : ∀ ty ∈ tys, AllParts Regular ty) :
    ResultsAgree tys (literalType tys) (literalType tys') := by
  unfold literalType
  rw [show tys.isEmpty = tys'.isEmpty by simpa using hperm.isEmpty_eq]
  split
  · trivial
  · exact ((Ty.combineAll_perm hperm htys).bind fun _ _ h => h.increaseRank 1).mapError _ _

theorem Annotate.outcome_ofTy {α : Type} (result : Except TyError α) (locals : Locals)
    (store : Store) :
    outcome (ofTy result) locals store =
      match result with
      | .ok a => (.ok (a, locals), store)
      | .error error => (.error (.ofTy error), store) := by
  cases result <;> rfl

-- Once its elements are typed, the literal is.
theorem Annotate.exprType_array {es : List Expr} {ts : List TypedExpr}
    (h : Yields (exprs ctx es) locals store ts locals' later) :
    exprType ctx (.array es) locals store = literalType (typesOf ts) := by
  have hempty : es.isEmpty = (typesOf ts).isEmpty := by
    cases es with
    | nil =>
        cases h
        rfl
    | cons e es =>
        obtain ⟨t, _, _, ts, -, -, rfl⟩ := yields_exprs_cons h
        rfl
  unfold Yields at h
  unfold exprType literalType expr
  rw [hempty, outcome_bind]
  cases (typesOf ts).isEmpty with
  | true => rfl
  | false =>
      change ((outcome (exprs ctx es >>= _) locals store).1.map _) = _
      rw [outcome_bind, h, Outcome.andThen_ok, outcome_bind, outcome_ofTy]
      dsimp only
      cases combineAll (typesOf ts) with
      | error error => rfl
      | ok elem =>
          rw [Outcome.andThen_ok, outcome_bind, outcome_ofTy]
          dsimp only [Except.bind]
          cases elem.increaseRank 1 <;> rfl

end Literals

section Invocations

variable {settings : Settings} {args : List Ty}

-- The types that closures return, asked for one after another.
def returnTypes (settings : Settings) (args : List Ty) (members : List Closure) :
    Session (List Ty) :=
  members.mapM fun member => returnType settings member.func (member.captured ++ args)

theorem outcome_joinResults_of_returnTypes : ∀ (members : List Closure) (joined : Ty)
    {store later : Store} {tys : List Ty},
      outcome (returnTypes settings args members) store = (.ok tys, later) →
      (outcome (joinResults (specializeWithin settings settings.limits.maxDepth []) args members
        joined) store).1 = (tys.foldlM Ty.combine joined).mapError .ofTy
  | [], joined, store, later, tys, h => by
      cases h
      rfl
  | member :: rest, joined, store, later, tys, h => by
      rw [outcome_joinResults_cons]
      unfold returnTypes at h
      rw [List.mapM_cons, outcome_bind, outcome_returnType, outcome_specialize] at h
      split at h
      · rcases hserve : outcome (specializeWithin settings settings.limits.maxDepth []
          ⟨member.func, member.captured ++ args⟩) store with ⟨error | spec, between⟩ <;>
          rw [hserve] at h
        · cases h
        · simp only [Outcome.andThen_ok, outcome_bind] at h ⊢
          rcases hrest : outcome (returnTypes settings args rest) between with ⟨error | tys, last⟩
          · unfold returnTypes at hrest
            rw [hrest] at h
            cases h
          · unfold returnTypes at hrest
            rw [hrest, Outcome.andThen_ok] at h
            cases h
            rw [List.foldlM_cons]
            cases joined.combine spec.returnType with
            | error error => rfl
            | ok joined => exact outcome_joinResults_of_returnTypes rest joined hrest
      · cases h

theorem invocationType_of_returnTypes {defs : List Func} {store later : Store}
    (hstore : Reachable settings defs store) {members : List Closure} {tys : List Ty}
    (h : outcome (returnTypes settings args members) store = (.ok tys, later)) :
    (outcome (invocationType settings (.closureSet members) args) store).1 =
      (combineAll tys).mapError .ofTy := by
  have hcoherent : store.Coherent := (lasting_coherent settings).of_reachable hstore
  rw [outcome_invocationType_fst hcoherent rfl]
  exact outcome_joinResults_of_returnTypes members .unknown h

end Invocations

-- Types are joined in any order, or in none, and to the same type up to the kinds that are
-- contested. For types without contested kinds the order does not matter, and for others it
-- does. So it is for the elements of an array literal, which have the same types in any
-- order in which they are all typed, and for what the functions of a set return, whatever
-- order their names put them in.
theorem joins_reordered :
    (∀ tys tys' : List Ty, (∀ ty ∈ tys, ty.AllParts Regular) → tys.Perm tys' →
        ResultsAgree tys (combineAll tys) (combineAll tys')) ∧
      (∀ (tys : List Ty) (joined : Ty), (∀ ty ∈ tys, ty.AllParts Regular) →
        combineAll tys = .ok joined →
          ((∀ tys', tys.Perm tys' → combineAll tys' = .ok joined) ↔
            ∀ path, ¬Contested (tys.map (kindAt path)))) ∧
      (∀ ctx ctx' es es' ts ts' locals locals' store store' last last' later later',
        Annotate.Yields (exprs ctx es) locals store ts last later →
        Annotate.Yields (exprs ctx' es') locals' store' ts' last' later' →
        (∀ t ∈ ts, t.ty.AllParts Regular) → (typesOf ts).Perm (typesOf ts') →
          ResultsAgree (typesOf ts) (Annotate.exprType ctx (.array es) locals store)
            (Annotate.exprType ctx' (.array es') locals' store')) ∧
      (∀ limits defs depth waiting es es' ts ts' locals store last last' later later',
        Sound defs store → locals.Drawn store.fresh → es.Perm es' →
        Annotate.Yields (exprs (contextOf limits depth waiting) es) locals store ts last later →
        Annotate.Yields (exprs (contextOf limits depth waiting) es') locals store ts' last' later' →
          (typesOf ts).Perm (typesOf ts')) ∧
      ∀ settings settings' defs defs' store store' members members' args args' tys tys' later
          later',
        Reachable settings defs store → Reachable settings' defs' store' →
        outcome (returnTypes settings args members) store = (.ok tys, later) →
        outcome (returnTypes settings' args' members') store' = (.ok tys', later') →
        (∀ ty ∈ tys, ty.AllParts Regular) → tys.Perm tys' →
          ResultsAgree tys (outcome (invocationType settings (.closureSet members) args) store).1
            (outcome (invocationType settings' (.closureSet members') args') store').1 := by
  refine ⟨fun tys tys' htys hperm => Ty.combineAll_perm hperm htys,
    fun tys joined htys h => Ty.combineAll_perm_eq_iff htys h, ?_, ?_, ?_⟩
  · intro ctx ctx' es es' ts ts' locals locals' store store' last last' later later' h h' hts hperm
    rw [Annotate.exprType_array h, Annotate.exprType_array h']
    exact Annotate.literalType_perm hperm (List.forall_mem_map.mpr hts)
  · intro limits defs depth waiting es es' ts ts' locals store _ _ _ _ hstore hlocals hperm h h'
    exact retyped_perm hlocals hstore hperm h h'
  · intro _ _ _ _ _ _ _ _ _ _ _ _ _ _ hstore hstore' h h' htys hperm
    rw [invocationType_of_returnTypes hstore h, invocationType_of_returnTypes hstore' h']
    exact (Ty.combineAll_perm hperm htys).mapError _ _

-- The kinds in front are contested in the first types, and none in the others, where a wider
-- kind is among them. The functions have other names in the second session.
theorem triples_reordered :
    let ints : List Ty := [.scalar .i16, .scalar .u16, .scalar .f32]
    let floats : List Ty := [.scalar .f32, .scalar .u16, .scalar .i16]
    let pairs : List Ty := [.tuple [.scalar .i16, .unknown],
      .tuple [.scalar .u16, .array .f32 2], .tuple [.scalar .i32, .array .u32 2]]
    let joined : Ty := .tuple [.scalar .i32, .array .f64 2]
    let es : List Expr := [.const (.int 1), .const (.bool true)]
    let es' : List Expr := [.const (.bool true), .const (.int 1)]
    let known (name : String) := Demo.define name ["x"] [.ret (.var "x")]
    let store := [.register (known "f"), .register (known "g"), .register (known "h")].foldl
      (Operation.after {}) {}
    let store' := [.register (known "v"), .register (known "u"), .register (known "w")].foldl
      (Operation.after {}) {}
    let members : List Closure :=
      [⟨"f", [.scalar .i16]⟩, ⟨"g", [.scalar .u16]⟩, ⟨"h", [.scalar .f32]⟩]
    let members' : List Closure :=
      [⟨"u", [.scalar .f32]⟩, ⟨"v", [.scalar .u16]⟩, ⟨"w", [.scalar .i16]⟩]
    ResultsAgree ints (combineAll ints) (combineAll floats) ∧
      combineAll pairs = .ok joined ∧
      ((∀ tys', pairs.Perm tys' → combineAll tys' = .ok joined) ↔
        ∀ path, ¬Contested (pairs.map (kindAt path))) ∧
      (∃ ts ts' : List TypedExpr, (typesOf ts).Perm (typesOf ts') ∧
        ResultsAgree (typesOf ts) (Annotate.exprType (contextOf {} 0 []) (.array es) {} {})
          (Annotate.exprType (contextOf {} 0 []) (.array es') {} {})) ∧
      ResultsAgree ints (outcome (invocationType {} (.closureSet members) []) store).1
        (outcome (invocationType {} (.closureSet members') []) store').1 := by
  intro ints floats pairs joined es es' known store store' members members'
  obtain ⟨hall, hiff, hliterals, hsession, hsets⟩ := joins_reordered
  have hints : ∀ ty ∈ ints, ty.AllParts Regular := by decide
  have hperm : ints.Perm floats := by decide
  have hpairs : combineAll pairs = .ok joined := by decide +kernel
  have hstart : Sound [] {} := (lasting_sound {}).start
  have hlocals : Locals.Drawn {} (Store.fresh {}) := .start _
  have htyped : Annotate.Yields (exprs (contextOf {} 0 []) es) {} {}
      [.const (.int 1) (.scalar .i64), .const (.bool true) (.scalar .bool)] {} {} := rfl
  have htyped' : Annotate.Yields (exprs (contextOf {} 0 []) es') {} {}
      [.const (.bool true) (.scalar .bool), .const (.int 1) (.scalar .i64)] {} {} := rfl
  have htypes := hsession {} [] 0 [] es es' _ _ {} {} _ _ _ _ hstart hlocals (.swap _ _ _) htyped
    htyped'
  obtain ⟨defs, hstore⟩ := Reachable.run [.register (known "f"), .register (known "g"),
    .register (known "h")] (.start : Reachable {} [] {})
  obtain ⟨defs', hstore'⟩ := Reachable.run [.register (known "v"), .register (known "u"),
    .register (known "w")] (.start : Reachable {} [] {})
  obtain ⟨later, hreturns⟩ := Outcome.exists_later (a := ints)
    (o := outcome (returnTypes {} [] members) store) (by decide +kernel)
  obtain ⟨later', hreturns'⟩ := Outcome.exists_later (a := floats)
    (o := outcome (returnTypes {} [] members') store') (by decide +kernel)
  exact ⟨hall ints floats hints hperm, hpairs, hiff pairs joined (by decide) hpairs,
    ⟨_, _, htypes, hliterals _ _ es es' _ _ {} {} {} {} _ _ _ _ htyped htyped' (by decide) htypes⟩,
    hsets {} {} defs defs' store store' members members' [] [] ints floats _ _ hstore hstore'
      hreturns hreturns' hints hperm⟩

-- A signed and an unsigned kind of 16 bits are each promoted with an `f32` to it, but not
-- what they are promoted to. An array without dimensions becomes a scalar as soon as it is
-- promoted, and not before. A call that is too deep is not, once what it calls is known.
theorem joins_in_order :
    let tys : List Ty := [.scalar .i16, .scalar .u16, .scalar .f32]
    let tys' : List Ty := [.scalar .f32, .scalar .i16, .scalar .u16]
    let flat : List Ty := [.array .i8 0, .array .i16 0, .scalar .i8]
    let flat' : List Ty := [.array .i8 0, .scalar .i8, .array .i16 0]
    let locals : Locals :=
      { names := [("a", "a.0"), ("b", "b.1"), ("c", "c.2")]
        env := [("a.0", .scalar .i16), ("b.1", .scalar .u16), ("c.2", .scalar .f32)] }
    let known (name : String) := Demo.define name ["x"] [.ret (.var "x")]
    let outer := Demo.define "outer" ["x"] [.ret (.invoke (Demo.named "inner") [.var "x"])]
    let store := [.register (known "f"), .register (known "g"), .register (known "h"),
      .register (known "inner"), .register outer].foldl (Operation.after (.ofLimits {})) {}
    let call (name : String) : Expr := .invoke (Demo.named name) [.const (.int 1)]
    (tys.Perm tys' ∧ combineAll tys = .ok (.scalar .f64) ∧ combineAll tys' = .ok (.scalar .f32)) ∧
      (flat.Perm flat' ∧ combineAll flat = .ok (.scalar .i16) ∧
        (combineAll flat').isOk = false) ∧
      ((Annotate.exprType (contextOf {} 1 []) (.array [.var "a", .var "b", .var "c"]) locals
          store).toOption = some (.array .f64 1) ∧
        (Annotate.exprType (contextOf {} 1 []) (.array [.var "c", .var "a", .var "b"]) locals
          store).toOption = some (.array .f32 1)) ∧
      ((Annotate.exprType (contextOf {} 1 []) (.array [call "inner", call "outer"]) locals
          store).toOption = some (.array .i64 1) ∧
        (Annotate.exprType (contextOf {} 1 []) (.array [call "outer", call "inner"]) locals
          store).toOption = none) ∧
      (outcome (invocationType (.ofLimits {}) (.closureSet [⟨"f", [.scalar .i16]⟩,
        ⟨"g", [.scalar .u16]⟩, ⟨"h", [.scalar .f32]⟩]) []) store).1.toOption = some (.scalar .f64) ∧
      (outcome (invocationType (.ofLimits {}) (.closureSet [⟨"f", [.scalar .f32]⟩,
        ⟨"g", [.scalar .i16]⟩, ⟨"h", [.scalar .u16]⟩]) []) store).1.toOption =
        some (.scalar .f32) := by
  decide +kernel

end RankPoly
