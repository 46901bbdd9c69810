import RankPoly.Proofs.Session.Covers

namespace RankPoly

open Session

variable {limits : Limits} {defs defs' : List Func} {store store' : Store}

-- A function that serves requests and, for those that another session has
-- served, adds nothing that the other session does not have.
def StaysInside (defs defs' : List Func) (store' : Store)
    (specialize : Request → Session Specialization) : Prop :=
  ∀ request store, Covers defs defs' store store' → store'.Has request →
    Covers defs defs' (outcome (specialize request) store).2 store'

namespace StaysInside

variable {specialize : Request → Session Specialization}

theorem joinResults (h : StaysInside defs defs' store' specialize) (args : List Ty) :
    ∀ (members : List Closure) (joined : Ty) (store : Store), Covers defs defs' store store' →
      (∀ member ∈ members, store'.Has ⟨member.func, member.captured ++ args⟩) →
      Covers defs defs' (outcome (Session.joinResults specialize args members joined) store).2 store'
  | [], joined, store, hcovers, _ => hcovers
  | member :: rest, joined, store, hcovers, hhas => by
      rw [outcome_joinResults_cons]
      have hfirst := h _ store hcovers (hhas member List.mem_cons_self)
      refine Outcome.holds_andThen (P := (Covers defs defs' · store')) hfirst ?_
      intro spec later _ hlater
      cases joined.combine spec.returnType with
      | error error => exact hlater
      | ok joined =>
          exact h.joinResults args rest joined later hlater fun member hmem =>
            hhas member (List.mem_cons_of_mem _ hmem)

theorem invokeWith (h : StaysInside defs defs' store' specialize)
    (hserves : Serves (Sound defs) specialize) {callee : Ty} {args : List Ty} {ty : Ty}
    (hanswer : answer store'.result? callee args = some ty)
    (hcovers : Covers defs defs' store store') :
    Covers defs defs' (outcome (Session.invokeWith specialize callee args) store).2 store' := by
  obtain ⟨members, hmembers, hknown⟩ := answer_known hanswer
  rw [outcome_invokeWith]
  cases store.callType? ⟨callee, args⟩ with
  | some ty => exact hcovers.counters _ _
  | none =>
      simp only [hmembers]
      have hjoin := h.joinResults args members .unknown store hcovers fun member hmem =>
        Store.has_iff.mpr (hknown member hmem)
      rcases houtcome : outcome (Session.joinResults specialize args members .unknown) store with
        ⟨error | joined, later⟩ <;> rw [houtcome] at hjoin
      · exact hjoin
      · refine hjoin.remember_left (Option.bind_eq_some_iff.mpr ⟨members, hmembers, ?_⟩)
        exact hserves.joinResults_known args houtcome

end StaysInside

theorem Store.has_of_mem {store : Store} {request : Request} {spec : Specialization}
    (h : (request, spec) ∈ store.built) : store.Has request := by
  have hfound : (store.built.find? fun entry => entry.1 = request).isSome :=
    List.find?_isSome.mpr ⟨_, h, by simp⟩
  obtain ⟨entry, hentry⟩ := Option.isSome_iff_exists.mp hfound
  exact ⟨entry.2, by unfold Store.specialization?; rw [hentry]; rfl⟩

theorem SameFuncs.refl (funcs : NameMap Func) : SameFuncs funcs funcs := by
  intro name func func' hfunc hfunc'
  cases hfunc.symm.trans hfunc'
  exact .refl func

-- What older specializations say of a request is what the store says of it.
theorem Sound.result?_of_older (h : Sound defs store) {older : List (Request × Specialization)}
    (holder : Grounded store.funcs older) (hsubset : older ⊆ store.built) {request : Request}
    {ty : Ty} (hty : resultIn older request = some ty) : store.result? request = some ty := by
  obtain ⟨spec, hspec, -⟩ := mem_of_resultIn hty
  obtain ⟨ty', hty'⟩ := Store.has_iff.mp (Store.has_of_mem (hsubset hspec))
  rw [hty', holder.results_agree (SameFuncs.refl store.funcs) h.grounded hty hty']

-- A function that has been specialized is known.
theorem Sound.contains_of_has (h : Sound defs store) {request : Request} (hhas : store.Has request) :
    store.funcs.contains request.func = true := by
  obtain ⟨spec, hspec⟩ := hhas
  obtain ⟨older, -, -, func, limit, start, again, last, hfunc, -⟩ :=
    h.grounded.replayed (mem_of_specialization? hspec)
  exact NameMap.contains_iff.mpr ⟨func, hfunc⟩

section Build

-- A replay of an entry of a session, set against work that stays inside of that session. The
-- work may stop anywhere, as what it has left is inside already.
def staying (defs defs' : List Func) (store' : Store) : Comparison :=
  .agreeing (fun _ store => Covers defs defs' store store') (fun _ => True)
    fun store => Covers defs defs' store store'

variable {specialize : Request → Session Specialization}
  {older : List (Request × Specialization)}

-- A call has to stay inside only if the other session knows what it gives.
theorem StaysInside.answers (h : StaysInside defs defs' store' specialize)
    (hserves : Serves (Sound defs) specialize) (hstore' : Sound defs' store')
    (holder : Grounded store'.funcs older) (hsubset : older ⊆ store'.built) (left : Store)
    {right : Store} {callee : Ty} {args : List Ty}
    (hright : ∀ ty, answer store'.result? callee args = some ty →
      Covers defs defs' right store') :
    (staying defs defs' store').Answers left right (outcome (replaying older callee args) left)
      (outcome (Session.invokeWith specialize callee args) right) := by
  rw [outcome_replaying]
  cases hanswer : answer (resultIn older) callee args with
  | none =>
      rcases outcome (Session.invokeWith specialize callee args) right with ⟨error | ty, later⟩
      · exact Or.inl trivial
      · trivial
  | some ty =>
      have hanswer' : answer store'.result? callee args = some ty :=
        answer_mono (hstore'.result?_of_older holder hsubset) hanswer
      have hright := hright ty hanswer'
      have hlater := h.invokeWith hserves hanswer' hright
      have hgrows := (hserves.leads_invokeWith (kept_sound {} defs) right callee args).1
      rcases hinvoke : outcome (Session.invokeWith specialize callee args) right with
        ⟨error | given, later⟩ <;> rw [hinvoke] at hlater hgrows
      · exact hlater
      · have hgiven := invokeWith_answer hserves hright.left.coherent hinvoke
        have heq := (answer_mono hlater.result? hgiven).symm.trans hanswer'
        cases heq
        exact ⟨rfl, hlater, le_rfl, hgrows.fresh⟩

theorem StaysInside.agrees (h : StaysInside defs defs' store' specialize)
    (hserves : Serves (Sound defs) specialize) (hstore' : Sound defs' store')
    (holder : Grounded store'.funcs older) (hsubset : older ⊆ store'.built) (limit limit' : Nat) :
    Comparison.Agrees (fun _ store => Covers defs defs' store store') (fun _ => True)
      (fun store => Covers defs defs' store store')
      { loopLimit := limit, invoke := replaying older }
      { loopLimit := limit', invoke := Session.invokeWith specialize } where
  fresh _ _ hcovers := hcovers.fresh _ store'.fresh
  registered := by
    intro left right name hcovers
    refine Or.inr ?_
    split
    · exact hcovers
    · trivial
  invoke callee args hcovers := h.answers hserves hstore' holder hsubset _ fun _ _ => hcovers
  lifted := by
    intro left right op args hcovers
    rw [Comparison.outcome_lifted, Comparison.outcome_lifted]
    refine (h.answers hserves hstore' holder hsubset _ fun ty hanswer => ?_).of_withWrapper
    -- what is known of a call of the wrapper is that of an entry for it, so it is there
    obtain ⟨members, hmembers, hknown⟩ := answer_known hanswer
    cases hmembers
    have hhas := Store.has_iff.mpr (hknown _ (List.mem_singleton.mpr rfl))
    exact hcovers.withWrapper_left (hstore'.contains_of_has hhas)
  limit_lt _ _ := trivial
  limit_gt := fun _ _ _ hcovers => hcovers

-- Building again what another session has built stays inside of what that
-- session has: the build goes in lockstep with the replay that the other
-- session's entry rests on, call by call.
theorem StaysInside.build (hinside : StaysInside defs defs' store' specialize)
    (hserves : Serves (Sound defs) specialize) {func : Func} {request : Request}
    (hcovers : Covers defs defs' store store') (hhas : store'.Has request)
    (hfunc : store.funcs.find? request.func = some func) :
    Covers defs defs'
      (outcome (Session.build (.ofLimits limits) (Session.invokeWith specialize) func request.args)
        store).2 store' := by
  obtain ⟨spec, hspec⟩ := hhas
  obtain ⟨older, holder, hsubset, func', limit, start, again, last, hfunc', hagain, -⟩ :=
    hcovers.right.grounded.replayed (mem_of_specialization? hspec)
  have hsame : func'.Same func :=
    hcovers.right.registry.sameFuncs hcovers.left.registry hcovers.defs.symm hfunc' hfunc
  have hends := (hinside.agrees hserves hcovers.right holder hsubset limit
    limits.maxLoopIterations).respects.annotate hsame trivial request.args start (inferring store)
    (hcovers.counters _ store'.counters) trivial
  rw [hagain] at hends
  rw [outcome_build]
  refine Outcome.holds_andThen (P := (Covers defs defs' · store')) ?_ ?_
  · change Covers defs defs' (outcome (func.annotate
      { loopLimit := limits.maxLoopIterations, invoke := Session.invokeWith specialize }
      request.args) (inferring store)).2 store'
    rcases hannotate : outcome (func.annotate
      { loopLimit := limits.maxLoopIterations, invoke := Session.invokeWith specialize }
      request.args) (inferring store) with ⟨error | given, later⟩ <;> rw [hannotate] at hends
    · exact hends
    · exact hends.agree
  · intro given later _ hlater
    exact hlater.counters _ store'.counters

end Build

theorem specializeWithin_inside (limits : Limits) (depth : Nat) :
    ∀ waiting, StaysInside defs defs' store' (specializeWithin (.ofLimits limits) depth waiting) := by
  induction depth with
  | zero =>
      intro waiting request store hcovers hhas
      rw [outcome_specializeWithin_zero]
      split
      · exact hcovers.counters _ _
      · exact hcovers
  | succ depth ih =>
      intro waiting request store hcovers hhas
      have hsound := ((serves_specializeWithin (kept_sound limits defs) (depth + 1) waiting).leads
        request store).2 hcovers.left
      rw [outcome_specializeWithin_succ] at hsound ⊢
      cases hcached : store.specialization? request with
      | some spec => exact hcovers.counters _ _
      | none =>
          by_cases hwaiting : request ∈ waiting
          · simp only [if_pos hwaiting]
            exact hcovers
          · simp only [hcached, if_neg hwaiting] at hsound ⊢
            cases hfunc : store.funcs.find? request.func with
            | none => exact hcovers
            | some func =>
                simp only [hfunc] at hsound
                have hserves := serves_specializeWithin (kept_sound limits defs) depth
                  (request :: waiting)
                refine Outcome.holds_andThen (P := (Covers defs defs' · store'))
                  ((ih _).build hserves hcovers hhas hfunc) ?_
                intro spec later heq hlater
                rw [heq, Outcome.andThen_ok] at hsound
                exact hlater.keep_left hsound hhas

end RankPoly
