import RankPoly.Proofs.Leaves
import RankPoly.Proofs.Session.Met

namespace RankPoly

open Session
open Ty (AllParts)

namespace Annotate

mutual

-- The locals that the annotation of a function goes through, given the types of its
-- parameters, at whatever times of a session its parts are annotated.
inductive Trail (settings : Settings) (params : List (String × Ty)) : Locals → Prop where
  | start : Trail settings params {}
  | rename {name known : String} {locals locals' : Locals} {store later : Store} :
      Trail settings params locals → Yields (rename name) locals store known locals' later →
      Trail settings params locals'
  | widen {known : String} {ty widened : Ty} {locals locals' : Locals} {store later : Store} :
      Trail settings params locals → Found settings params ty →
      Yields (widen known ty) locals store widened locals' later → Trail settings params locals'
  | returns {ty : Ty} {u : Unit} {locals locals' : Locals} {store later : Store} :
      Trail settings params locals → Found settings params ty →
      Yields (returns ty) locals store u locals' later → Trail settings params locals'

-- The types that are found on the way: those of parameters and of all expressions, those
-- of the parts of tuples that are taken apart, and what values that are merged join to.
inductive Found (settings : Settings) (params : List (String × Ty)) : Ty → Prop where
  | param {name : String} {ty : Ty} : (name, ty) ∈ params → Found settings params ty
  | value {depth : Nat} {waiting : List Request} {e : Expr} {t : TypedExpr}
      {locals locals' : Locals} {store later : Store} : Trail settings params locals →
      Met settings store →
      Yields (expr (settings.context depth waiting) e) locals store t locals' later →
      Found settings params t.ty
  | elem {elems : List Ty} {ty : Ty} : Found settings params (.tuple elems) → ty ∈ elems →
      Found settings params ty
  | join {lhs rhs ty : Ty} : Found settings params lhs → Found settings params rhs →
      lhs.combine rhs = .ok ty → Found settings params ty

end

end Annotate

-- A specialization whose variables have the types that the trail of its annotation leads
-- to.
def Specialization.Trails (settings : Settings) (func : Func) (args : List Ty)
    (spec : Specialization) : Prop :=
  ∃ binding locals, func.params.bind args = .ok binding ∧
    Annotate.Trail settings binding.params locals ∧ spec.env = locals.env

namespace Annotate

variable {settings : Settings} {params : List (String × Ty)}

-- All that is done in an annotation stays on the trail.
theorem leaving_trail (settings : Settings) (params : List (String × Ty)) (depth : Nat)
    (waiting : List Request) :
    Leaving (fun locals store => Trail settings params locals ∧ Met settings store)
      (fun _ _ => True) (Found settings params) (settings.context depth waiting)
      (settings.context depth waiting) where
  limit := rfl
  fresh name h := ⟨h.1, h.2.fresh name⟩
  addWrapper op h := ⟨h.1, h.2.wrapper op⟩
  fails _ _ := trivial
  same _ _ _ := rfl
  invoke := by
    intro locals store callee args h
    have hlater := h.2.invoke depth waiting callee args
    change (Session.outcome (invokeWith (specializeWithin settings depth waiting) callee args)
      store).Leaves _ _
    rcases hinvoke : Session.outcome (invokeWith (specializeWithin settings depth waiting) callee
      args) store with ⟨error | ty, later⟩ <;> rw [hinvoke] at hlater
    · trivial
    · exact ⟨h.1, hlater⟩
  rename h hrename := by
    refine ⟨h.1.rename hrename, ?_⟩
    obtain ⟨-, -, rfl⟩ := yields_rename.mp hrename
    exact h.2.fresh _
  widen h hty hwiden := by
    refine ⟨h.1.widen hty hwiden, ?_⟩
    obtain ⟨-, -, rfl⟩ := yields_widen.mp hwiden
    exact h.2
  returns h hty hreturns := by
    refine ⟨h.1.returns hty hreturns, ?_⟩
    obtain ⟨_, -, -, rfl⟩ := yields_returns.mp hreturns
    exact h.2
  value h hexpr := .value h.1 h.2 hexpr
  elem := .elem
  join := .join

-- The trail leads to where the annotation of the function ends.
theorem func_trails {depth : Nat} {waiting : List Request} {source : Func} {args : List Ty}
    {spec : Specialization} {locals' : Locals} {store later : Store} (hstore : Met settings store)
    (h : Yields (func (settings.context depth waiting) source args) {} store spec locals' later) :
    spec.Trails settings source args := by
  obtain ⟨binding, entered, middle, body, between, hbinding, hparams, hblock, -, rfl⟩ :=
    yields_func h
  have hctx := leaving_trail settings binding.params depth waiting
  have hentered := (bindParams_leaves hctx fun _ => .param).yields ⟨.start, hstore⟩ hparams
  obtain ⟨htrail, -⟩ := (block_leaves hctx source.body).yields hentered hblock
  exact ⟨binding, locals', hbinding, htrail, rfl⟩

section Parts

variable {p : Ty → Prop}

mutual

-- What is found for parameters of some kind is of that kind, all the way along.
theorem Trail.parts (hp : Ty.Stable p) (hpasses : settings.Keeps p)
    (hparams : ∀ param ∈ params, AllParts p param.2) : ∀ {locals : Locals},
      Trail settings params locals →
      (∀ {name ty}, locals.env.find? name = some ty → AllParts p ty) ∧
        ∀ ty ∈ locals.returnType, AllParts p ty
  | _, .start => ⟨nofun, nofun⟩
  | _, .rename htrail h => by
      obtain ⟨henv, hreturn⟩ := htrail.parts hp hpasses hparams
      obtain ⟨-, rfl, -⟩ := yields_rename.mp h
      exact ⟨henv, hreturn⟩
  | _, .widen htrail hfound h => by
      obtain ⟨henv, hreturn⟩ := htrail.parts hp hpasses hparams
      have hty := hfound.parts hp hpasses hparams
      obtain ⟨hmoves, -⟩ := widen_moves hp.regime hty (P := fun _ => True) ⟨trivial, henv⟩ h
      exact ⟨hmoves.held.env, hmoves.returned hreturn⟩
  | _, .returns htrail hfound h => by
      obtain ⟨henv, hreturn⟩ := htrail.parts hp hpasses hparams
      have hty := hfound.parts hp hpasses hparams
      obtain ⟨hmoves, -⟩ := returns_moves hp.regime hty (P := fun _ => True) ⟨trivial, henv⟩ h
      exact ⟨hmoves.held.env, hmoves.returned hreturn⟩

theorem Found.parts (hp : Ty.Stable p) (hpasses : settings.Keeps p)
    (hparams : ∀ param ∈ params, AllParts p param.2) : ∀ {ty : Ty}, Found settings params ty →
      AllParts p ty
  | _, .param hmem => hparams _ hmem
  | _, .value htrail hstore h => by
      obtain ⟨henv, -⟩ := htrail.parts hp hpasses hparams
      have hctx := (kept_sure hp.regime hpasses).flowing hp.regime id
      have hsure := (lasting_sure hp.regime hpasses).of_met hstore
      exact (expr_flows (hctx _ _) _ ⟨hsure, henv⟩ h).2.ty
  | _, .elem htuple hmem => (Ty.allParts_tuple.mp (htuple.parts hp hpasses hparams)).2 _ hmem
  | _, .join hlhs hrhs h =>
      hp.combine h (hlhs.parts hp hpasses hparams) (hrhs.parts hp hpasses hparams)

end

end Parts

end Annotate

end RankPoly
