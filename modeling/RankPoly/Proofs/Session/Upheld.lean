import RankPoly.Proofs.Elaboration.Wrapper
import RankPoly.Proofs.Session.Covers

namespace RankPoly

open Session

-- What is kept for an operator's wrapper returns what the operator gives. For arrays this rests
-- on what older specializations return for scalars.
theorem Grounded.wrapped_of_scalars {funcs : NameMap Func}
    {built : List (Request × Specialization)} (h : Grounded funcs built) {op : Prim}
    {kinds : List Scalar} {tys : List Ty} {ty : Ty}
    (hfunc : funcs.find? (wrapperName op) = some (wrapper op)) (hlength : kinds.length = op.arity)
    (hkinds : List.Forall₂ Ty.HasKind tys kinds)
    (hscalars : tys.mapM Ty.scalar? = none → ∀ older elem, Grounded funcs older →
      resultIn older ⟨wrapperName op, (op.inputs kinds).map Ty.scalar⟩ = some elem →
      elem = .scalar (op.result kinds))
    (hresult : resultIn built ⟨wrapperName op, tys⟩ = some ty) :
    ty = .ofRank (op.result kinds) (Ty.maxRank tys) := by
  obtain ⟨spec, hmem, rfl⟩ := mem_of_resultIn hresult
  obtain ⟨older, holder, -, func, limit, start, again, last, hfound, hagain, hrenamed⟩ :=
    h.replayed hmem
  cases hfunc.symm.trans hfound
  have hleaves : (outcome ((wrapper op).annotate
      { loopLimit := limit, invoke := replaying older } tys) start).Leaves
        (fun spec _ => spec.returnType = .ofRank (op.result kinds) (Ty.maxRank tys))
        fun _ _ => True := by
    refine Annotate.wrapper_ranked hlength hkinds fun hnone fresh => ?_
    rw [outcome_replaying]
    cases hanswer : answer (resultIn older) (.closure ⟨wrapperName op, []⟩)
      ((op.inputs kinds).map Ty.scalar) with
    | none => trivial
    | some elem => exact hscalars hnone older elem holder (answer_closure hanswer)
  rw [hagain] at hleaves
  exact hrenamed.returnType_eq.trans hleaves

theorem Grounded.wrapped_scalars {funcs : NameMap Func} {built : List (Request × Specialization)}
    (h : Grounded funcs built) {op : Prim} {kinds : List Scalar} {elem : Ty}
    (hfunc : funcs.find? (wrapperName op) = some (wrapper op)) (hlength : kinds.length = op.arity)
    (hresult : resultIn built ⟨wrapperName op, (op.inputs kinds).map Ty.scalar⟩ = some elem) :
    elem = .scalar (op.result kinds) := by
  have helem := h.wrapped_of_scalars hfunc ((op.length_inputs kinds).trans hlength)
    (Ty.forall₂_hasKind_scalars _) (fun hnone => ?_) hresult
  · rwa [Ty.maxRank_scalars, op.result_inputs] at helem
  · rw [Annotate.mapM_scalar?_map] at hnone
    cases hnone

theorem Grounded.wrapped {funcs : NameMap Func} {built : List (Request × Specialization)}
    (h : Grounded funcs built) {op : Prim} {kinds : List Scalar} {tys : List Ty} {ty : Ty}
    (hfunc : funcs.find? (wrapperName op) = some (wrapper op)) (hlength : kinds.length = op.arity)
    (hkinds : List.Forall₂ Ty.HasKind tys kinds)
    (hresult : resultIn built ⟨wrapperName op, tys⟩ = some ty) :
    ty = .ofRank (op.result kinds) (Ty.maxRank tys) :=
  h.wrapped_of_scalars hfunc hlength hkinds
    (fun _ _ _ holder helem => holder.wrapped_scalars hfunc hlength helem) hresult

theorem Sound.wrapped {defs : List Func} {store : Store} (h : Sound defs store) {op : Prim}
    {kinds : List Scalar} {elem : Ty}
    (hfunc : store.funcs.find? (wrapperName op) = some (wrapper op))
    (hlength : kinds.length = op.arity)
    (hanswer : answer store.result? (.closure ⟨wrapperName op, []⟩)
      ((op.inputs kinds).map Ty.scalar) = some elem) : elem = .scalar (op.result kinds) :=
  h.grounded.wrapped_scalars hfunc hlength (answer_closure hanswer)

section Session

variable {limits : Limits} {defs : List Func}

-- What annotations see of a session.
def contextOf (limits : Limits) (depth : Nat) (waiting : List Request) : Annotate.Context where
  loopLimit := limits.maxLoopIterations
  invoke := invokeWith (specializeWithin (.ofLimits limits) depth waiting)

-- Annotations in a session have what they rely on, as long as what is kept
-- throughout the session implies that it is sound.
theorem answering_of_sound {P : Store → Prop} (hsound : ∀ {store}, P store → Sound defs store)
    (hfresh : ∀ {store} name, P store → P { store with fresh := (store.fresh.refresh name).2 })
    (hwrapper : ∀ {store} op, P store → P (withWrapper op store)) {depth : Nat}
    {waiting : List Request}
    (hinvoke : ∀ {store}, P store → ∀ callee args,
      P (outcome (invokeWith (specializeWithin (.ofLimits limits) depth waiting) callee args)
        store).2) :
    Annotate.Answering P (contextOf limits depth waiting) where
  fresh := hfresh
  addWrapper := hwrapper
  invoke := by
    intro store callee args ty later hstore h
    change outcome (invokeWith (specializeWithin (.ofLimits limits) depth waiting) callee args)
      store = (.ok ty, later) at h
    have hserves := serves_specializeWithin (kept_coherent (.ofLimits limits)) depth waiting
    have hgrows := grows_invokeWith (.ofLimits limits) depth waiting callee args store
    have hlater := hinvoke hstore callee args
    rw [h] at hgrows hlater
    exact ⟨hgrows, hlater, invokeWith_answer hserves (hsound hstore).coherent h⟩
  wrapped hstore := (hsound hstore).wrapped

theorem answering_sound (limits : Limits) (defs : List Func) (depth : Nat)
    (waiting : List Request) :
    Annotate.Answering (Sound defs) (contextOf limits depth waiting) := by
  have hkept := kept_sound limits defs
  refine answering_of_sound id (fun name h => hkept.fresh _ (by simp) h)
    (fun op h => (Leads.withWrapper hkept _ op).2 h) fun {store} h callee args => ?_
  exact ((serves_specializeWithin hkept depth waiting).leads_invokeWith hkept store callee args).2 h

-- A property that only a new specialization can touch, and that it keeps.
structure Upheld (Q : Store → Prop) : Prop where
  start : Q {}
  mono : ∀ {store later}, Q store → store.Grows later → later.built = store.built → Q later
  keep : ∀ {defs ctx store later locals func request spec},
    Annotate.Answering (fun store => Sound defs store ∧ Q store) ctx →
    Sound defs store ∧ Q store →
    Annotate.Yields (Annotate.func ctx func request.args) {} store spec locals later → Q later →
    later.specialization? request = none → later.funcs.find? request.func = some func →
    Q { later with built := (request, spec) :: later.built }

namespace Upheld

variable {Q : Store → Prop}

theorem withWrapper (hQ : Upheld Q) {store : Store} (op : Prim) (h : Q store) :
    Q (Session.withWrapper op store) :=
  hQ.mono h (.withWrapper op store) (withWrapper_built op store)

theorem kept (hQ : Upheld Q) (limits : Limits) (defs : List Func) :
    Kept (.ofLimits limits) fun store => Sound defs store ∧ Q store where
  counters counters h :=
    ⟨(kept_sound limits defs).counters counters h.1, hQ.mono h.2 ⟨id, id, le_rfl⟩ rfl⟩
  fresh fresh hle h :=
    ⟨(kept_sound limits defs).fresh fresh hle h.1, hQ.mono h.2 ⟨id, id, hle⟩ rfl⟩
  wrapper op h hfree :=
    ⟨(kept_sound limits defs).wrapper op h.1 hfree, hQ.mono h.2 (.insert hfree) rfl⟩
  remember callee args ty h hanswer :=
    ⟨(kept_sound limits defs).remember callee args ty h.1 hanswer,
      hQ.mono h.2 ⟨id, id, le_rfl⟩ rfl⟩
  keep := by
    intro store later depth waiting request func spec hstore hlater hgrows hnew hfunc hinvoke hbuild
    have hsound : Sound defs { later with built := (request, spec) :: later.built } := by
      have hkept := kept_sound limits defs
      refine hkept.keep hstore.1 hlater.1 hgrows hnew hfunc (fun h callee args => ?_) hbuild
      exact ((serves_specializeWithin hkept depth _).leads_invokeWith hkept _ callee args).2 h
    have hctx : Annotate.Answering (fun store => Sound defs store ∧ Q store)
        (contextOf limits depth (request :: waiting)) := by
      refine answering_of_sound And.left (fun name h => ?_) (fun op h => ?_) hinvoke
      · exact ⟨(kept_sound limits defs).fresh _ (by simp) h.1,
          hQ.mono h.2 ⟨id, id, by simp⟩ rfl⟩
      · exact ⟨(Leads.withWrapper (kept_sound limits defs) _ op).2 h.1, hQ.withWrapper op h.2⟩
    obtain ⟨last, hannotate, rfl⟩ := annotate_of_build hbuild
    obtain ⟨locals, hyields⟩ := Annotate.yields_of_annotate hannotate
    have hinferring : Sound defs (inferring store) ∧ Q (inferring store) :=
      ⟨(kept_sound limits defs).counters _ hstore.1, hQ.mono hstore.2 ⟨id, id, le_rfl⟩ rfl⟩
    have hlast : Q last := hQ.mono hlater.2 ⟨id, id, le_rfl⟩ rfl
    have hkeep := hQ.keep hctx hinferring hyields hlast hnew (hgrows.funcs hfunc)
    exact ⟨hsound, hQ.mono hkeep ⟨id, id, le_rfl⟩ rfl⟩

theorem lasting (hQ : Upheld Q) (limits : Limits) :
    Lasting (.ofLimits limits) fun defs store => Sound defs store ∧ Q store where
  start := ⟨(lasting_sound limits).start, hQ.start⟩
  kept := hQ.kept limits
  register := by
    intro defs store func known later h hregister
    refine ⟨(lasting_sound limits).register h.1 hregister, ?_⟩
    rcases register_ok hregister with rfl | ⟨hfree, rfl⟩
    · exact h.2
    · exact hQ.mono h.2 (.insert hfree) rfl

theorem of_reachable (hQ : Upheld Q) {store : Store}
    (h : Reachable (.ofLimits limits) defs store) : Sound defs store ∧ Q store :=
  (hQ.lasting limits).of_reachable h

-- A request that succeeds leaves a store with the property, where its result is
-- kept.
theorem specialize (hQ : Upheld Q) {store later : Store}
    (hstore : Reachable (.ofLimits limits) defs store) {name : String} {args : List Ty}
    {spec : Specialization}
    (h : outcome (Session.specialize (.ofLimits limits) name args) store = (.ok spec, later)) :
    Q later ∧ store.Grows later ∧ later.specialization? ⟨name, args⟩ = some spec ∧
      ∃ func, store.funcs.find? name = some func := by
  have hlater := specialize_kept (hQ.kept limits defs) name args (hQ.of_reachable hstore)
  have hgrows := grows_specializeWithin (.ofLimits limits) limits.maxDepth [] ⟨name, args⟩ store
  rw [h] at hlater
  rw [outcome_specialize] at h
  split at h
  · rename_i hname
    have hfound := specializeWithin_found h
    change outcome (specializeWithin (.ofLimits limits) limits.maxDepth [] ⟨name, args⟩) store = _
      at h
    rw [h] at hgrows
    exact ⟨hlater.2, hgrows, hfound, NameMap.contains_iff.mp hname⟩
  · cases h

end Upheld

end Session

end RankPoly
