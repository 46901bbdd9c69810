import RankPoly.Proofs.AppendOnly
import RankPoly.Proofs.Session.Guarded

namespace RankPoly

open Annotate (applyMap applyPrim expr exprs givenAxis requireCallable typesOf)
open Session

-- A store in which no function but an operator's wrapper goes by the name of the wrapper.
def Store.Unshadowed (store : Store) (op : Prim) : Prop :=
  ∀ func, store.funcs.find? (wrapperName op) = some func → func = wrapper op

theorem Store.Unshadowed.of_wraps {store later : Store} {op : Prim} (h : store.Unshadowed op)
    (hwraps : store.Wraps later) : later.Unshadowed op := by
  intro func hfunc
  rcases hwraps _ _ hfunc with hfound | ⟨op', hname, rfl⟩
  · exact h func hfound
  · rw [wrapperName_injective hname]

theorem Store.Unshadowed.find?_wrapper {store : Store} {op : Prim} (h : store.Unshadowed op)
    (hname : store.funcs.contains (wrapperName op) = true) :
    store.funcs.find? (wrapperName op) = some (wrapper op) := by
  obtain ⟨func, hfunc⟩ := NameMap.contains_iff.mp hname
  rw [hfunc, h func hfunc]

namespace Annotate

variable {settings : Settings} {depth : Nat} {waiting : List Request} {locals locals' : Locals}
  {store later : Store}

-- Operands are typed on a course that keeps whatever a session keeps.
theorem exprs_leads {P : Store → Prop} (hP : Kept settings P) {es : List Expr}
    {ts : List TypedExpr}
    (h : Yields (exprs (settings.context depth waiting) es) locals store ts locals' later) :
    Leads P store later := by
  have hctx : Leaving (fun _ => Leads P store) (fun _ => Leads P store) (fun _ => True)
      (settings.context depth waiting) (settings.context depth waiting) :=
    @Leaving.of_leads _ (Leads P) .trans (.fresh hP) (.withWrapper hP)
      ((serves_specializeWithin hP depth waiting).leads_invokeWith hP) store
  exact (exprs_leave hctx.toReading es).yields (.refl store) h

-- The name of a function that is known, as what a map is to apply.
theorem yields_named {ctx : Context} {name : String}
    (hname : store.funcs.contains name = true) :
    Yields (expr ctx (.closure name [])) locals store
      (.closure name [] (.closure ⟨name, []⟩)) locals store := by
  unfold Yields
  simp only [expr, exprs, outcome_bind, outcome_lift, outcome_isRegistered, Outcome.andThen_ok,
    hname]
  rfl

variable {limits : Limits} {defs : List Func} {op : Prim} {ts : List TypedExpr}
  {kinds : List Scalar}

-- Only the lifting of an operator asks for its wrapper, which is added if need be.
theorem applyPrim_typed (hsound : Sound defs store) (hname : store.Unshadowed op)
    (hlength : kinds.length = op.arity) (hkinds : List.Forall₂ Ty.HasKind (typesOf ts) kinds) :
    (outcome (applyPrim ((Settings.ofLimits limits).context depth waiting) op ts) locals
      store).Leaves
      (fun result _ => result.1.ty = .ofRank (op.result kinds) (Ty.maxRank (typesOf ts)))
      fun error _ => 0 < Ty.maxRank (typesOf ts) ∧
        ∃ args, Guarded 1 depth waiting ⟨wrapperName op, args⟩ error := by
  have hadded := (Leads.withWrapper (kept_sound limits defs) store op).2 hsound
  have hname : (withWrapper op store).Unshadowed op := hname.of_wraps
    ((Leads.withWrapper (kept_wraps (.ofLimits limits) store) store op).2 fun _ _ => Or.inl)
  have hfunc := hname.find?_wrapper (contains_withWrapper op store)
  refine Outcome.Leaves.imp (applyPrim_ranked hlength hkinds fun hnone => ?_)
    (fun _ _ h => h.1) fun _ _ h => h
  refine (invokeWith_wrapper_scalars hadded hfunc hlength).imp (fun _ _ h => h)
    fun _ _ h => ⟨Nat.pos_of_ne_zero fun hrank => ?_, _, h⟩
  rw [Ty.eq_scalars_of_maxRank hkinds hrank, mapM_scalar?_map] at hnone
  cases hnone

theorem applyMap_typed {axis : Option Nat} (hsound : Sound defs store)
    (hfunc : store.funcs.find? (wrapperName op) = some (wrapper op))
    (hlength : kinds.length = op.arity) (hkinds : List.Forall₂ Ty.HasKind (typesOf ts) kinds)
    (haxis : ∀ i ∈ axis, i < Ty.maxRank (typesOf ts)) :
    (outcome (applyMap ((Settings.ofLimits limits).context depth waiting)
      (.closure (wrapperName op) [] (.closure ⟨wrapperName op, []⟩)) ts axis) locals store).Leaves
      (fun result _ => result.1.ty = .ofRank (op.result kinds) (Ty.maxRank (typesOf ts)))
      fun error _ => ∃ args, Guarded 2 depth waiting ⟨wrapperName op, args⟩ error :=
  Outcome.Leaves.imp (applyMap_ranked hkinds haxis fun _ hnested =>
    invokeWith_wrapper hsound hfunc hlength hnested) (fun _ _ h => h.1) fun _ _ h => h

end Annotate

-- An operator may be applied to its operands as they are, or by a map of its wrapper along any
-- of their axes or none. Either way the type is the operator's, with the highest rank among
-- the operands, which are scalars and arrays of whatever ranks. The one error there can be is
-- that of the guard on nested requests, about the wrapper: too few more requests may wait, or
-- that very one does. An operator on scalars alone asks for none.
theorem applications_agree {limits : Limits} {store later : Store}
    (hstore : Met (.ofLimits limits) store) {op : Prim} (hname : store.Unshadowed op)
    {depth : Nat} {waiting : List Request} {es : List Expr} {ts : List TypedExpr}
    {locals locals' : Locals}
    (hes : Annotate.Yields (exprs ((Settings.ofLimits limits).context depth waiting) es) locals
      store ts locals' later)
    {kinds : List Scalar} (hlength : kinds.length = op.arity)
    (hkinds : List.Forall₂ Ty.HasKind (typesOf ts) kinds) :
    let ctx := (Settings.ofLimits limits).context depth waiting
    let rank := Ty.maxRank (typesOf ts)
    let ty := Ty.ofRank (op.result kinds) rank
    (Annotate.outcome (expr ctx (.prim op es)) locals store).Leaves
        (fun result _ => result.1.ty = ty)
        (fun error _ =>
          0 < rank ∧ ∃ args, Guarded 1 depth waiting ⟨wrapperName op, args⟩ error) ∧
      (store.funcs.contains (wrapperName op) = true →
        ∀ operand axis, givenAxis operand = some axis → (∀ i ∈ axis, i < rank) →
          (Annotate.outcome (expr ctx (.map (.closure (wrapperName op) []) es operand)) locals
            store).Leaves (fun result _ => result.1.ty = ty)
            fun error _ => ∃ args, Guarded 2 depth waiting ⟨wrapperName op, args⟩ error) := by
  intro ctx rank ty
  obtain ⟨defs, hsound⟩ := (lasting_sound limits).exists_of_met hstore
  obtain ⟨hgrows, hsound⟩ := (Annotate.exprs_leads (kept_sound limits defs) hes).imp_right (· hsound)
  have hname := hname.of_wraps
    ((Annotate.exprs_leads (kept_wraps (.ofLimits limits) store) hes).2 fun _ _ => Or.inl)
  unfold Annotate.Yields at hes
  constructor
  · simp only [expr, Annotate.outcome_bind]
    rw [hes, Outcome.andThen_ok]
    exact Annotate.applyPrim_typed hsound hname hlength hkinds
  · intro hregistered operand axis hgiven haxis
    have hfunc := hname.find?_wrapper (hgrows.contains hregistered)
    have hcallee : Annotate.Yields (expr ctx (.closure (wrapperName op) [])) locals store
        (.closure (wrapperName op) [] (.closure ⟨wrapperName op, []⟩)) locals store :=
      Annotate.yields_named hregistered
    unfold Annotate.Yields at hcallee
    have hcallable : requireCallable (.closure (wrapperName op) [] (.closure ⟨wrapperName op, []⟩)) =
        pure (.closure (wrapperName op) [] (.closure ⟨wrapperName op, []⟩)) := rfl
    rw [expr, Annotate.constAxis_eq hgiven, pure_bind, Annotate.outcome_bind, hcallee,
      Outcome.andThen_ok, hcallable, pure_bind, Annotate.outcome_bind, hes, Outcome.andThen_ok]
    exact Annotate.applyMap_typed hsound hfunc hlength hkinds haxis

-- A matrix of floats and a vector of whole numbers, with enough levels left for what is nested.
theorem sum_applications_agree :
    let locals : Locals :=
      { names := [("x", "x_0"), ("y", "y_0")]
        env := [("x_0", .array .f32 2), ("y_0", .array .i64 1)] }
    let store := withWrapper .add {}
    let ctx := (Settings.ofLimits {}).context 2 []
    let es : List Expr := [.var "x", .var "y"]
    let named : Expr := .closure "prim_add" []
    ∀ e ∈ [.prim .add es, .map named es none, .map named es (some (.const (.int 0))),
        .map named es (some (.const (.int 1)))],
      ∃ result later, Annotate.outcome (expr ctx e) locals store = (.ok result, later) ∧
        result.1.ty = .array .f64 2 := by
  intro locals store ctx es named
  have hstore : Met (.ofLimits {}) store := .wrapper .add (.reached .start)
  have hfound : store.funcs.find? "prim_add" = some (wrapper .add) := rfl
  have hname : store.Unshadowed .add := fun func hfunc =>
    Option.some.inj (hfunc.symm.trans hfound)
  have hes : Annotate.Yields (exprs ctx es) locals store
      [.var "x_0" (.array .f32 2), .var "y_0" (.array .i64 1)] locals store := rfl
  have hkinds : List.Forall₂ Ty.HasKind [.array .f32 2, .array .i64 1] [Scalar.f32, .i64] :=
    .cons ⟨2, rfl⟩ (.cons ⟨1, rfl⟩ .nil)
  obtain ⟨hprim, hmap⟩ := applications_agree hstore hname hes rfl hkinds
  have hmap := hmap (NameMap.contains_iff.mpr ⟨_, hfound⟩)
  have hfree : ∀ {levels args error}, levels ≤ 2 →
      ¬Guarded levels 2 [] ⟨"prim_add", args⟩ error := fun hlevels =>
    not_guarded hlevels List.not_mem_nil
  rw [List.forall_mem_cons, List.forall_mem_cons, List.forall_mem_cons, List.forall_mem_singleton]
  refine ⟨hprim.exists_ok ?_, (hmap none none rfl ?_).exists_ok ?_,
    (hmap (some (.const (.int 0))) (some 0) rfl ?_).exists_ok ?_,
    (hmap (some (.const (.int 1))) (some 1) rfl ?_).exists_ok ?_⟩
  · exact fun _ _ ⟨_, _, h⟩ => hfree (by decide) h
  · decide
  · exact fun _ _ ⟨_, h⟩ => hfree le_rfl h
  · decide
  · exact fun _ _ ⟨_, h⟩ => hfree le_rfl h
  · decide
  · exact fun _ _ ⟨_, h⟩ => hfree le_rfl h

end RankPoly
