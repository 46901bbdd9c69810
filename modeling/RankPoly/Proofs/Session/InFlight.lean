import RankPoly.Proofs.Session.Coherent

namespace RankPoly.Session

-- The stores on the way of a request, from a first one on, for as long as no request
-- that is made on the way fails. Those are served by `serve`.
inductive Course (serve : Request → Session Specialization) (first : Store) : Store → Prop where
  | first : Course serve first first
  | counters {store : Store} (counters : Counters) : Course serve first store →
      Course serve first { store with counters }
  | fresh {store : Store} (name : String) : Course serve first store →
      Course serve first { store with fresh := (store.fresh.refresh name).2 }
  | withWrapper {store : Store} (op : Prim) : Course serve first store →
      Course serve first (withWrapper op store)
  | remember {store : Store} (call : Call) (ty : Ty) : Course serve first store →
      Course serve first { store with calls := (call, ty) :: store.calls }
  | served {store later : Store} {request : Request} {spec : Specialization} :
      Course serve first store → outcome (serve request) store = (.ok spec, later) →
      Course serve first later

-- A failure on the way of a request: an error of its own, or that of a request that
-- is made on the way.
inductive FailsAlong (serve : Request → Session Specialization) (first : Store)
    (error : SpecializeError) (later : Store) : Prop where
  | raised : Course serve first later → FailsAlong serve first error later
  | nested {request : Request} {reached : Store} : Course serve first reached →
      outcome (serve request) reached = (.error error, later) → FailsAlong serve first error later

section Leaves

variable {serve : Request → Session Specialization} {first store : Store}

theorem Course.serve_leaves (h : Course serve first store) (request : Request) :
    (outcome (serve request) store).Leaves (fun _ => Course serve first)
      (FailsAlong serve first) := by
  rcases hserve : outcome (serve request) store with ⟨error | spec, later⟩
  · exact .nested h hserve
  · exact .served h hserve

theorem Course.joinResults_leaves (args : List Ty) : ∀ (members : List Closure) (joined : Ty)
    {store : Store}, Course serve first store →
      (outcome (joinResults serve args members joined) store).Leaves (fun _ => Course serve first)
        (FailsAlong serve first)
  | [], joined, store, h => h
  | member :: rest, joined, store, h => by
      rw [outcome_joinResults_cons]
      refine (h.serve_leaves _).andThen fun spec later hlater => ?_
      cases joined.combine spec.returnType with
      | error error => exact .raised hlater
      | ok joined => exact joinResults_leaves args rest joined hlater

theorem Course.invokeWith_leaves (h : Course serve first store) (callee : Ty) (args : List Ty) :
    (outcome (invokeWith serve callee args) store).Leaves (fun _ => Course serve first)
      (FailsAlong serve first) := by
  rw [outcome_invokeWith]
  cases store.callType? ⟨callee, args⟩ with
  | some ty => exact .counters _ h
  | none =>
      cases callee.members? with
      | none => exact .raised h
      | some members =>
          exact (h.joinResults_leaves args members .unknown).andThen fun ty _ hlater =>
            .remember ⟨callee, args⟩ ty hlater

theorem Course.runPass_leaves (h : Course serve first store) (pass : Pass)
    (change : Counters → Counters) (spec : Specialization) :
    (outcome (runPass pass change spec) store).Leaves (fun _ => Course serve first)
      (FailsAlong serve first) := by
  have hlater := h.counters (change store.counters)
  rw [outcome_runPass]
  cases pass spec with
  | ok spec => exact hlater
  | error error => exact .raised hlater

-- A specialization is built on a course, also if the annotation or a pass fails.
theorem build_leaves (settings : Settings) (serve : Request → Session Specialization) (func : Func)
    (args : List Ty) (store : Store) :
    (outcome (build settings (invokeWith serve) func args) store).Leaves
      (fun _ => Course serve store) (FailsAlong serve store) := by
  have hctx : Annotate.Leaving (fun _ => Course serve store) (FailsAlong serve store)
      (fun _ => True)
      { loopLimit := settings.limits.maxLoopIterations, invoke := invokeWith serve }
      { loopLimit := settings.limits.maxLoopIterations, invoke := invokeWith serve } :=
    .of_store rfl (fun name h => h.fresh name) (fun op h => h.withWrapper op)
      (fun _ h => .raised h) (fun _ _ _ => rfl) fun callee args h => h.invokeWith_leaves callee args
  rw [outcome_build]
  refine (Func.annotate_leaves hctx func args (.counters _ .first)).andThen fun spec later h => ?_
  rw [outcome_bind]
  exact (h.runPass_leaves _ _ spec).andThen fun spec later h => h.runPass_leaves _ _ spec

end Leaves

section Specialize

variable {settings : Settings} {depth : Nat} {waiting : List Request} {request : Request}
  {store later : Store} {error : SpecializeError}

theorem unbuilt_of_failed
    (h : outcome (specializeWithin settings depth waiting request) store = (.error error, later)) :
    store.specialization? request = none := by
  cases hbuilt : store.specialization? request with
  | none => rfl
  | some spec =>
      rw [outcome_specializeWithin_cached hbuilt] at h
      cases h

-- A request that fails does so on the way of its build, in which it waits for the
-- requests that it makes.
theorem failsAlong_of_failed
    (h : outcome (specializeWithin settings (depth + 1) waiting request) store =
      (.error error, later)) :
    FailsAlong (specializeWithin settings depth (request :: waiting)) store error later := by
  have hnew := unbuilt_of_failed h
  simp only [outcome_specializeWithin_succ, hnew] at h
  split at h
  · cases h
    exact .raised .first
  · split at h
    · cases h
      exact .raised .first
    · rename_i func _
      have hleaves :=
        build_leaves settings (specializeWithin settings depth (request :: waiting)) func
          request.args store
      rcases hbuild : outcome (build settings
        (invokeWith (specializeWithin settings depth (request :: waiting))) func request.args) store
        with ⟨error' | built, between⟩ <;> rw [hbuild] at h hleaves
      · cases h
        exact hleaves
      · obtain ⟨kept, hkept⟩ := outcome_keep_ok request built between
        rw [Outcome.andThen_ok, hkept] at h
        cases h

-- What a run leaves unbuilt, it leaves so on every course of it.
theorem Course.unbuilt {serve : Request → Session Specialization} {first : Store}
    {pending : Request}
    (hserve : ∀ request {store}, store.specialization? pending = none →
      (outcome (serve request) store).2.specialization? pending = none)
    (h : Course serve first store) (hfirst : first.specialization? pending = none) :
    store.specialization? pending = none := by
  induction h with
  | first => exact hfirst
  | counters _ _ ih | fresh _ _ ih | remember _ _ _ ih => exact ih
  | withWrapper op _ ih =>
      unfold Store.specialization? at ih ⊢
      rwa [withWrapper_built]
  | @served store later request spec _ hserved ih =>
      have hlater := hserve request ih
      rwa [hserved] at hlater

theorem FailsAlong.unbuilt {serve : Request → Session Specialization} {first : Store}
    {pending : Request}
    (hserve : ∀ request {store}, store.specialization? pending = none →
      (outcome (serve request) store).2.specialization? pending = none)
    (h : FailsAlong serve first error later) (hfirst : first.specialization? pending = none) :
    later.specialization? pending = none := by
  cases h with
  | raised hcourse => exact hcourse.unbuilt hserve hfirst
  | @nested inner reached hcourse hinner =>
      have hlater := hserve inner (hcourse.unbuilt hserve hfirst)
      rwa [hinner] at hlater

-- No request is served, at any depth, by building one of those that wait for it.
theorem specializeWithin_unbuilt {pending : Request} : ∀ {depth : Nat} {waiting : List Request}
    (request : Request) {store : Store}, pending ∈ waiting →
      store.specialization? pending = none →
      (outcome (specializeWithin settings depth waiting request) store).2.specialization? pending =
        none
  | 0, waiting, request, store, _, hstore => by
      rw [outcome_specializeWithin_zero]
      split
      · exact hstore
      · exact hstore
  | depth + 1, waiting, request, store, hpending, hstore => by
      have hnested : ∀ nested {store : Store}, store.specialization? pending = none →
          (outcome (specializeWithin settings depth (request :: waiting) nested)
            store).2.specialization? pending = none :=
        fun nested _ => specializeWithin_unbuilt nested (List.mem_cons_of_mem _ hpending)
      rcases hrun : outcome (specializeWithin settings (depth + 1) waiting request) store with
        ⟨error | spec, later⟩
      · exact (failsAlong_of_failed hrun).unbuilt hnested hstore
      · cases hbuilt : store.specialization? request with
        | some known =>
            rw [outcome_specializeWithin_cached hbuilt] at hrun
            cases hrun
            exact hstore
        | none =>
            obtain ⟨below, func, built, between, hdepth, hwaiting, -, hbuild, hkeep⟩ :=
              built_of_specializeWithin hbuilt hrun
            cases hdepth
            have hcourse := build_leaves settings
              (specializeWithin settings depth (request :: waiting)) func request.args store
            rw [hbuild] at hcourse
            have hbetween := hcourse.unbuilt hnested hstore
            have hne : request ≠ pending := fun heq => hwaiting (heq ▸ hpending)
            rw [outcome_keep] at hkeep
            split at hkeep
            · cases hkeep
              exact hbetween
            · cases hkeep
              simpa [Store.specialization?, hne] using hbetween

-- The requests in flight when a request fails, the innermost one first. The error was
-- raised on the way of the innermost one, which may not have got under way at all, and
-- each of the others has failed because of a request that was made on its way.
inductive InFlight (settings : Settings) (error : SpecializeError) (later : Store) :
    Nat → List Request → Request → Store → List Request → Prop where
  | exhausted {waiting : List Request} {request : Request} {store : Store} :
      outcome (specializeWithin settings 0 waiting request) store = (.error error, later) →
      InFlight settings error later 0 waiting request store (request :: waiting)
  | raised {depth : Nat} {waiting : List Request} {request : Request} {store : Store} :
      outcome (specializeWithin settings (depth + 1) waiting request) store = (.error error, later) →
      Course (specializeWithin settings depth (request :: waiting)) store later →
      InFlight settings error later (depth + 1) waiting request store (request :: waiting)
  | nested {depth : Nat} {waiting : List Request} {request inner : Request}
      {store reached : Store} {stack : List Request} :
      outcome (specializeWithin settings (depth + 1) waiting request) store = (.error error, later) →
      Course (specializeWithin settings depth (request :: waiting)) store reached →
      InFlight settings error later depth (request :: waiting) inner reached stack →
      InFlight settings error later (depth + 1) waiting request store stack

theorem exists_inFlight : ∀ {depth : Nat} {waiting : List Request} {request : Request}
    {store : Store},
    outcome (specializeWithin settings depth waiting request) store = (.error error, later) →
      ∃ stack, InFlight settings error later depth waiting request store stack
  | 0, waiting, request, store, h => ⟨_, .exhausted h⟩
  | depth + 1, waiting, request, store, h => by
      cases failsAlong_of_failed h with
      | raised hcourse => exact ⟨_, .raised h hcourse⟩
      | nested hcourse hinner =>
          obtain ⟨stack, hstack⟩ := exists_inFlight hinner
          exact ⟨stack, .nested h hcourse hstack⟩

namespace InFlight

variable {stack : List Request}

theorem failed (h : InFlight settings error later depth waiting request store stack) :
    outcome (specializeWithin settings depth waiting request) store = (.error error, later) := by
  cases h with
  | exhausted h | raised h _ | nested h _ _ => exact h

-- The request that fails is in flight, and so are all that wait for it.
theorem suffix (h : InFlight settings error later depth waiting request store stack) :
    request :: waiting <:+ stack := by
  induction h with
  | exhausted | raised => exact List.suffix_rfl
  | nested _ _ _ ih => exact (List.suffix_cons _ _).trans ih

-- Nothing in flight has been built by the time the error gets through.
theorem unbuilt (h : InFlight settings error later depth waiting request store stack)
    (hwaiting : ∀ pending ∈ waiting, store.specialization? pending = none) :
    ∀ pending ∈ stack, later.specialization? pending = none := by
  have hpending : ∀ pending ∈ request :: waiting, store.specialization? pending = none :=
    List.forall_mem_cons.mpr ⟨unbuilt_of_failed h.failed, hwaiting⟩
  induction h with
  | exhausted h =>
      have hnew := unbuilt_of_failed h
      simp only [outcome_specializeWithin_zero, hnew] at h
      cases h
      exact hpending
  | raised _ hcourse =>
      intro pending hmem
      exact hcourse.unbuilt (fun nested _ => specializeWithin_unbuilt nested hmem)
        (hpending pending hmem)
  | nested _ hcourse hinner ih =>
      have hreached := fun pending hmem =>
        hcourse.unbuilt (fun nested _ => specializeWithin_unbuilt nested hmem)
          (hpending pending hmem)
      exact ih hreached (List.forall_mem_cons.mpr ⟨unbuilt_of_failed hinner.failed, hreached⟩)

end InFlight

end Specialize

end RankPoly.Session
