import RankPoly.Proofs.Session.Met
import RankPoly.Proofs.Session.Upheld

namespace RankPoly

open Session

namespace Session

-- The guard on nested requests refuses one that is not kept, where fewer than `levels` more
-- may wait, or where the very request is being served.
def Guarded (levels depth : Nat) (waiting : List Request) (request : Request)
    (error : SpecializeError) : Prop :=
  error = .recursive request.func request.args ∧ (depth < levels ∨ request ∈ waiting)

-- With enough levels left, only what is being served is refused.
theorem not_guarded {levels depth : Nat} {waiting : List Request} {request : Request}
    {error : SpecializeError} (hlevels : levels ≤ depth) (hwaiting : request ∉ waiting) :
    ¬Guarded levels depth waiting request error :=
  fun h => h.2.elim (Nat.not_lt.mpr hlevels) hwaiting

theorem Guarded.mono {levels levels' depth : Nat} {waiting : List Request} {request : Request}
    {error : SpecializeError} (hle : levels ≤ levels')
    (h : Guarded levels depth waiting request error) :
    Guarded levels' depth waiting request error :=
  ⟨h.1, h.2.imp_left fun hlt => hlt.trans_le hle⟩

-- What the guard refuses one level further down, it refuses for want of two levels, if it is
-- not the request that is served there.
theorem Guarded.of_nested {levels depth : Nat} {waiting : List Request} {outer inner : Request}
    {error : SpecializeError} (h : Guarded levels depth (outer :: waiting) inner error)
    (hne : inner ≠ outer) : Guarded (levels + 1) (depth + 1) waiting inner error :=
  ⟨h.1, h.2.imp Nat.succ_lt_succ fun hmem => (List.mem_cons.mp hmem).resolve_left hne⟩

variable {limits : Limits} {depth : Nat} {waiting : List Request} {store : Store}
  {done : Specialization → Store → Prop} {failed : SpecializeError → Store → Prop}

-- A request for a function that is known fails by the guard, or as the annotation of the
-- function fails.
theorem specializeWithin_leaves {request : Request} {func : Func}
    (hfunc : store.funcs.find? request.func = some func)
    (hannotate : ∀ below, depth = below + 1 →
      (outcome (func.annotate ((Settings.ofLimits limits).context below (request :: waiting))
        request.args) (inferring store)).Leaves done failed) :
    (outcome (specializeWithin (.ofLimits limits) depth waiting request) store).Leaves
      (fun _ _ => True)
      fun error later => Guarded 1 depth waiting request error ∨ failed error later := by
  cases depth with
  | zero =>
      rw [outcome_specializeWithin_zero]
      split
      · trivial
      · exact Or.inl ⟨rfl, Or.inl Nat.zero_lt_one⟩
  | succ below =>
      rw [outcome_specializeWithin_succ]
      split
      · trivial
      · split
        · rename_i hwaiting
          exact Or.inl ⟨rfl, Or.inr hwaiting⟩
        · have hbuilt : (outcome (build (.ofLimits limits)
              (invokeWith (specializeWithin (.ofLimits limits) below (request :: waiting))) func
              request.args) store).Leaves (fun _ _ => True) failed := by
            rw [outcome_build_ofLimits]
            exact (hannotate below rfl).andThen fun _ _ _ => trivial
          simp only [hfunc]
          refine (hbuilt.imp (fun _ _ h => h) fun _ _ => Or.inr).andThen fun spec later _ => ?_
          obtain ⟨kept, hkept⟩ := outcome_keep_ok request spec later
          rw [hkept]
          trivial

theorem invokeWith_closure_leaves {name : String} {func : Func} {args : List Ty}
    (hfunc : store.funcs.find? name = some func)
    (hannotate : ∀ below, depth = below + 1 →
      (outcome (func.annotate ((Settings.ofLimits limits).context below (⟨name, args⟩ :: waiting))
        args) (inferring store)).Leaves done failed) :
    (outcome (invokeWith (specializeWithin (.ofLimits limits) depth waiting) (.closure ⟨name, []⟩)
      args) store).Leaves (fun _ _ => True)
      fun error later => Guarded 1 depth waiting ⟨name, args⟩ error ∨ failed error later := by
  have hserved : (outcome (specializeWithin (.ofLimits limits) depth waiting ⟨name, args⟩)
      store).Leaves (fun _ _ => True)
      fun error later => Guarded 1 depth waiting ⟨name, args⟩ error ∨ failed error later :=
    specializeWithin_leaves hfunc hannotate
  rw [outcome_invokeWith]
  split
  · trivial
  · change (Outcome.andThen (outcome (joinResults _ args [⟨name, []⟩] .unknown) store) _).Leaves _ _
    rw [outcome_joinResults_cons]
    refine .andThen (.andThen hserved fun spec later _ => ?_) fun _ _ h => h
    rw [Ty.combine_unknown_left]
    trivial

variable {defs : List Func} {op : Prim} {kinds : List Scalar}

-- A wrapper that is asked for gives what its operator gives, where anything else than the
-- guard can only come from its annotation.
theorem invokeWith_wrapper_leaves {tys : List Ty} (hsound : Sound defs store)
    (hfunc : store.funcs.find? (wrapperName op) = some (wrapper op))
    (hlength : kinds.length = op.arity) (hkinds : List.Forall₂ Ty.HasKind tys kinds)
    (hannotate : ∀ below, depth = below + 1 →
      (outcome ((wrapper op).annotate
        ((Settings.ofLimits limits).context below (⟨wrapperName op, tys⟩ :: waiting)) tys)
        (inferring store)).Leaves done failed) :
    (outcome (invokeWith (specializeWithin (.ofLimits limits) depth waiting)
      (.closure ⟨wrapperName op, []⟩) tys) store).Leaves
      (fun elem _ => elem = .ofRank (op.result kinds) (Ty.maxRank tys))
      fun error later => Guarded 1 depth waiting ⟨wrapperName op, tys⟩ error ∨ failed error later := by
  have hleaves := invokeWith_closure_leaves hfunc hannotate
  have hctx := answering_sound limits defs depth waiting
  rcases hinvoke : outcome (invokeWith (specializeWithin (.ofLimits limits) depth waiting)
    (.closure ⟨wrapperName op, []⟩) tys) store with ⟨error | elem, later⟩
  · rwa [hinvoke] at hleaves
  · obtain ⟨hgrows, hlater, hanswer⟩ := hctx.invoke hsound hinvoke
    exact hlater.grounded.wrapped (hgrows.funcs hfunc) hlength hkinds (answer_closure hanswer)

theorem invokeWith_wrapper_scalars (hsound : Sound defs store)
    (hfunc : store.funcs.find? (wrapperName op) = some (wrapper op))
    (hlength : kinds.length = op.arity) :
    (outcome (invokeWith (specializeWithin (.ofLimits limits) depth waiting)
      (.closure ⟨wrapperName op, []⟩) ((op.inputs kinds).map Ty.scalar)) store).Leaves
      (fun elem _ => elem = .scalar (op.result kinds))
      fun error _ =>
        Guarded 1 depth waiting ⟨wrapperName op, (op.inputs kinds).map Ty.scalar⟩ error := by
  have hlength := (op.length_inputs kinds).trans hlength
  have hkinds := Ty.forall₂_hasKind_scalars (op.inputs kinds)
  have hannotate : ∀ ctx : Annotate.Context,
      (outcome ((wrapper op).annotate ctx ((op.inputs kinds).map Ty.scalar))
        (inferring store)).Leaves (fun spec _ => spec.returnType =
          .ofRank (op.result (op.inputs kinds)) (Ty.maxRank ((op.inputs kinds).map Ty.scalar)))
        fun _ _ => False := by
    intro ctx
    refine Annotate.wrapper_ranked hlength hkinds fun hnone => ?_
    rw [Annotate.mapM_scalar?_map] at hnone
    cases hnone
  refine (invokeWith_wrapper_leaves hsound hfunc hlength hkinds fun below _ => hannotate _).imp ?_
    fun _ _ h => h.resolve_right id
  rintro elem later rfl
  rw [Ty.maxRank_scalars, op.result_inputs]
  rfl

-- On arrays the wrapper lifts its operator, and asks for itself on scalars.
theorem invokeWith_wrapper {tys : List Ty} (hsound : Sound defs store)
    (hfunc : store.funcs.find? (wrapperName op) = some (wrapper op))
    (hlength : kinds.length = op.arity) (hkinds : List.Forall₂ Ty.HasKind tys kinds) :
    (outcome (invokeWith (specializeWithin (.ofLimits limits) depth waiting)
      (.closure ⟨wrapperName op, []⟩) tys) store).Leaves
      (fun elem _ => elem = .ofRank (op.result kinds) (Ty.maxRank tys))
      fun error _ => ∃ args, Guarded 2 depth waiting ⟨wrapperName op, args⟩ error := by
  have hannotate : ∀ below, depth = below + 1 →
      (outcome ((wrapper op).annotate
        ((Settings.ofLimits limits).context below (⟨wrapperName op, tys⟩ :: waiting)) tys)
        (inferring store)).Leaves
        (fun spec _ => spec.returnType = .ofRank (op.result kinds) (Ty.maxRank tys)) fun error _ =>
          Guarded 2 depth waiting ⟨wrapperName op, (op.inputs kinds).map Ty.scalar⟩ error := by
    rintro below rfl
    refine Annotate.wrapper_ranked hlength hkinds fun hnone fresh => ?_
    have hsound' : Sound defs { inferring store with fresh } :=
      ⟨hsound.registry, hsound.grounded, hsound.coherent⟩
    have hadded : withWrapper op { inferring store with fresh } = { inferring store with fresh } :=
      withWrapper_of_contains (NameMap.contains_iff.mpr ⟨_, hfunc⟩)
    rw [hadded]
    refine (invokeWith_wrapper_scalars hsound' hfunc hlength).imp (fun _ _ h => h)
      fun error _ h => h.of_nested ?_
    rintro ⟨⟩
    rw [Annotate.mapM_scalar?_map] at hnone
    cases hnone
  refine (invokeWith_wrapper_leaves hsound hfunc hlength hkinds hannotate).imp (fun _ _ h => h)
    fun error _ h => ?_
  rcases h with h | h
  · exact ⟨tys, h.mono (by decide)⟩
  · exact ⟨_, h⟩

end Session

end RankPoly
