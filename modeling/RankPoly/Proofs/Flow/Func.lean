import RankPoly.Proofs.Elaboration.Func
import RankPoly.Proofs.Flow.Stmt

namespace RankPoly

open Ty (AllParts)

-- A specialization with a body that flows into what is known of its variables in
-- the end, and of its result.
structure Specialization.Flows (p bound : Ty → Prop) (spec : Specialization) : Prop where
  body : Stmt.BlockFlows p { env := spec.env, returnType := some spec.returnType } spec.body
  env : ∀ {name ty}, spec.env.find? name = some ty → bound ty
  returnType : AllParts p spec.returnType

-- Arguments that give the parameters of a function types of the wanted kind.
def Func.Admits (bound : Ty → Prop) (func : Func) (args : List Ty) : Prop :=
  ∀ binding, func.params.bind args = .ok binding → ∀ param ∈ binding.params, bound param.2

namespace Params

theorem bindPositional_parts {p : Ty → Prop} (hp : Ty.Stable p) {defaults : NameMap Const} :
    ∀ {names : List String} {tys : List Ty} {bound : List (String × Ty)} {surplus : List Ty},
      (∀ ty ∈ tys, AllParts p ty) → bindPositional defaults names tys = .ok (bound, surplus) →
      (∀ param ∈ bound, AllParts p param.2) ∧ ∀ ty ∈ surplus, AllParts p ty
  | [], tys, bound, surplus, htys, h => by
      cases h
      exact ⟨nofun, htys⟩
  | name :: names, ty :: tys, bound, surplus, htys, h => by
      obtain ⟨hty, htys⟩ := List.forall_mem_cons.mp htys
      unfold bindPositional at h
      cases hrest : bindPositional defaults names tys with
      | error error =>
          rw [hrest] at h
          cases h
      | ok result =>
          rw [hrest] at h
          cases h
          obtain ⟨hbound, hsurplus⟩ := bindPositional_parts hp htys hrest
          exact ⟨List.forall_mem_cons.mpr ⟨hty, hbound⟩, hsurplus⟩
  | name :: names, [], bound, surplus, htys, h => by
      unfold bindPositional at h
      split at h
      · cases h
      · cases hrest : bindPositional defaults names [] with
        | error error =>
            rw [hrest] at h
            cases h
        | ok result =>
            rw [hrest] at h
            cases h
            obtain ⟨hbound, hsurplus⟩ := bindPositional_parts hp htys hrest
            exact ⟨List.forall_mem_cons.mpr ⟨hp.const _, hbound⟩, hsurplus⟩

-- Parameters are made of what the arguments and the literals are made of, and so is what
-- is passed for them.
theorem bind_parts {p : Ty → Prop} (hp : Ty.Stable p) {params : Params} {args : List Ty}
    {binding : Binding} (hargs : ∀ arg ∈ args, AllParts p arg)
    (h : params.bind args = .ok binding) :
    (∀ param ∈ binding.params, AllParts p param.2) ∧ ∀ ty ∈ binding.inputs, AllParts p ty := by
  rw [bind_eq] at h
  cases hbound : bindPositional params.defaults params.positional args with
  | error error =>
      rw [hbound] at h
      cases h
  | ok result =>
      obtain ⟨hparams, hsurplus⟩ := bindPositional_parts hp hargs hbound
      have htypes : ∀ ty ∈ result.1.map Prod.snd, AllParts p ty := List.forall_mem_map.mpr hparams
      rw [hbound] at h
      cases hvarargs : params.varargs with
      | some name =>
          simp only [hvarargs] at h
          cases h
          refine ⟨List.forall_mem_append.mpr ⟨hparams, List.forall_mem_singleton.mpr ?_⟩,
            List.forall_mem_append.mpr ⟨htypes, hsurplus⟩⟩
          exact Ty.allParts_tuple.mpr ⟨hp.tuple _, hsurplus⟩
      | none =>
          simp only [hvarargs] at h
          split at h
          · cases h
            exact ⟨hparams, htypes⟩
          · cases h

end Params

theorem Regime.admits {p bound : Ty → Prop} (hp : Regime p bound) {func : Func} {args : List Ty}
    (hargs : ∀ arg ∈ args, AllParts p arg) : func.Admits bound args := by
  intro binding hbinding param hparam
  exact hp.of_parts ((Params.bind_parts hp.stable hargs hbinding).1 param hparam)

namespace Annotate

variable {p bound : Ty → Prop} {P : Store → Prop} {ctx : Context} {locals' : Locals}
  {store later : Store}

theorem bindParams_flows (hctx : Flowing p bound P ctx) : ∀ (params : List (String × Ty))
    {locals locals' : Locals} {store later : Store} {u : Unit},
      (∀ param ∈ params, bound param.2) → Held p bound P locals store →
      Yields (bindParams params) locals store u locals' later →
      Held p bound P locals' later ∧ locals'.returnType = locals.returnType
  | [], locals, locals', store, later, u, _, hheld, h => by
      unfold bindParams at h
      obtain ⟨-, rfl, rfl⟩ := yields_pure.mp h
      exact ⟨hheld, rfl⟩
  | (name, ty) :: rest, locals, locals', store, later, u, hparams, hheld, h => by
      obtain ⟨hty, htail⟩ := List.forall_mem_cons.mp hparams
      simp only [bindParams, yields_bind] at h
      obtain ⟨known, _, _, hrename, widened, _, _, hwiden, hrest⟩ := h
      obtain ⟨hmoves, -⟩ := widen_moves hctx.regime hty (hheld.rename hctx hrename) hwiden
      obtain ⟨-, rfl, rfl⟩ := yields_widen.mp hwiden
      obtain ⟨rfl, rfl, rfl⟩ := yields_rename.mp hrename
      obtain ⟨hheld', hreturn⟩ := bindParams_flows hctx rest htail hmoves.held hrest
      exact ⟨hheld', hreturn⟩

-- The value that is returned at the end of a body that returns none flows
-- nowhere but into the result.
theorem flows_retNone (hp : Regime p bound) (env : NameMap Ty) :
    Stmt.BlockFlows p { env, returnType := some .none } [.ret (.const .none .none)] := by
  refine List.forall_mem_singleton.mpr ⟨?_, ?_, nofun, nofun, ?_⟩
  · refine List.forall_mem_singleton.mpr ?_
    rintro node (_ | ⟨⟨⟩, -⟩)
    exact Ty.allParts_none.mpr hp.stable.none
  · refine List.forall_mem_singleton.mpr ?_
    rintro name ty (_ | ⟨⟨⟩, -⟩)
  · rintro _ ⟨⟩
    exact ⟨.none, rfl, .none⟩

-- A function whose parameters have types of the wanted kind flows into what is
-- known in the end.
theorem func_flows (hctx : Flowing p bound P ctx) {source : Func} {args : List Ty}
    {spec : Specialization} (hstore : P store) (hargs : source.Admits bound args)
    (h : Yields (func ctx source args) {} store spec locals' later) :
    P later ∧ spec.Flows p bound := by
  obtain ⟨binding, entered, middle, body, between, hbinding, hparams, hblock, rfl, rfl⟩ :=
    yields_func h
  have hempty : Held p bound P {} store := .start hstore
  obtain ⟨hentered, hnone⟩ :=
    bindParams_flows hctx binding.params (hargs binding hbinding) hempty hparams
  obtain ⟨hmoves, hbody⟩ := block_flows hctx source.body hentered hblock
  refine ⟨hctx.fresh source.name hmoves.held.store, ?_⟩
  cases hreturn : locals'.returnType with
  | some ty =>
      refine ⟨?_, hmoves.held.env, hmoves.returned (by simp [hnone]) ty hreturn⟩
      intro s hs
      refine (hbody s hs).flows.widen ⟨.refl _, fun ty hty => ⟨ty, hreturn ▸ hty, ty.below_refl⟩⟩
  | none =>
      refine ⟨?_, hmoves.held.env, Ty.allParts_none.mpr hctx.regime.stable.none⟩
      unfold Stmt.BlockFlows withReturn
      rw [Stmt.withinBlock_append]
      refine List.forall_mem_append.mpr ⟨fun s hs => ?_, flows_retNone hctx.regime _⟩
      refine (hbody s hs).flows.widen ⟨.refl _, fun ty hty => ?_⟩
      cases hreturn.symm.trans hty

end Annotate

end RankPoly
