import RankPoly.Proofs.Outcome

namespace RankPoly.Session

-- The store once one more result has been found in the cache, or the memo.
def hitCache (store : Store) : Store :=
  { store with counters := { store.counters with cacheHits := store.counters.cacheHits + 1 } }

def hitMemo (store : Store) : Store :=
  { store with counters := { store.counters with memoHits := store.counters.memoHits + 1 } }

def inferring (store : Store) : Store :=
  { store with counters := { store.counters with inferences := store.counters.inferences + 1 } }

theorem outcome_runPass (pass : Pass) (change : Counters → Counters) (spec : Specialization)
    (store : Store) :
    outcome (runPass pass change spec) store =
      (pass spec, { store with counters := change store.counters }) := by
  unfold runPass
  rw [outcome_bind, outcome_count, Outcome.andThen_ok]
  cases pass spec <;> rfl

theorem outcome_build (settings : Settings) (invoke : Ty → List Ty → Session Ty) (func : Func)
    (args : List Ty) (store : Store) :
    outcome (build settings invoke func args) store =
      (outcome (func.annotate { loopLimit := settings.limits.maxLoopIterations, invoke } args)
        (inferring store)).andThen fun spec =>
      outcome (do
        let spec ← runPass settings.coercion
          (fun counters => { counters with coercionRuns := counters.coercionRuns + 1 }) spec
        runPass settings.optimizer
          (fun counters => { counters with optimizerRuns := counters.optimizerRuns + 1 }) spec) := by
  unfold build
  rw [outcome_bind, outcome_count, Outcome.andThen_ok, outcome_bind]
  rfl

theorem outcome_joinResults_cons (specialize : Request → Session Specialization) (args : List Ty)
    (member : Closure) (rest : List Closure) (joined : Ty) (store : Store) :
    outcome (joinResults specialize args (member :: rest) joined) store =
      (outcome (specialize ⟨member.func, member.captured ++ args⟩) store).andThen fun spec later =>
        match joined.combine spec.returnType with
        | .ok joined => outcome (joinResults specialize args rest joined) later
        | .error error => (.error (.ofTy error), later) := by
  rw [joinResults, outcome_bind]
  congr 1
  funext spec later
  cases joined.combine spec.returnType <;> rfl

-- A member's result is joined in before the other members are asked.
theorem yields_joinResults_cons {specialize : Request → Session Specialization} {args : List Ty}
    {member : Closure} {rest : List Closure} {joined ty : Ty} {store later : Store}
    (h : Yields (joinResults specialize args (member :: rest) joined) store ty later) :
    ∃ spec between joined',
      Yields (specialize ⟨member.func, member.captured ++ args⟩) store spec between ∧
      joined.combine spec.returnType = .ok joined' ∧
      Yields (joinResults specialize args rest joined') between ty later := by
  unfold Yields at h ⊢
  rw [outcome_joinResults_cons] at h
  rcases hspec : outcome (specialize ⟨member.func, member.captured ++ args⟩) store with
    ⟨error | spec, between⟩
  · rw [hspec] at h
    cases h
  · rw [hspec, Outcome.andThen_ok] at h
    cases hcombine : joined.combine spec.returnType with
    | error error =>
        rw [hcombine] at h
        cases h
    | ok joined' =>
        rw [hcombine] at h
        exact ⟨spec, between, joined', rfl, hcombine, h⟩

theorem outcome_invokeWith (specialize : Request → Session Specialization) (callee : Ty)
    (args : List Ty) (store : Store) :
    outcome (invokeWith specialize callee args) store =
      match store.callType? ⟨callee, args⟩ with
      | some ty => (.ok ty, hitMemo store)
      | none =>
        match callee.members? with
        | none => (.error (.unresolvable callee), store)
        | some members =>
          (outcome (joinResults specialize args members .unknown) store).andThen fun ty later =>
            (.ok ty, { later with calls := (⟨callee, args⟩, ty) :: later.calls }) := by
  unfold invokeWith
  rw [outcome_bind, outcome_remembered]
  cases store.callType? ⟨callee, args⟩ with
  | some ty => rfl
  | none =>
      rw [Outcome.andThen_ok]
      cases callee.members? with
      | none => rfl
      | some members => exact outcome_bind _ _ _

theorem outcome_specializeWithin_zero (settings : Settings) (waiting : List Request)
    (request : Request) (store : Store) :
    outcome (specializeWithin settings 0 waiting request) store =
      match store.specialization? request with
      | some spec => (.ok spec, hitCache store)
      | none => (.error (.recursive request.func request.args), store) := by
  unfold specializeWithin
  rw [outcome_bind, outcome_cached]
  cases store.specialization? request <;> rfl

theorem outcome_specializeWithin_succ (settings : Settings) (depth : Nat)
    (waiting : List Request) (request : Request) (store : Store) :
    outcome (specializeWithin settings (depth + 1) waiting request) store =
      match store.specialization? request with
      | some spec => (.ok spec, hitCache store)
      | none =>
        if request ∈ waiting then (.error (.recursive request.func request.args), store)
        else
          match store.funcs.find? request.func with
          | none => (.error (.unknownFunc request.func), store)
          | some func =>
            (outcome (build settings
              (invokeWith (specializeWithin settings depth (request :: waiting))) func request.args)
              store).andThen fun spec => outcome (keep request spec) := by
  unfold specializeWithin
  rw [outcome_bind, outcome_cached]
  cases store.specialization? request with
  | some spec => rfl
  | none =>
      rw [Outcome.andThen_ok]
      by_cases hwaiting : request ∈ waiting
      · simp only [if_pos hwaiting]
        rfl
      · simp only [if_neg hwaiting]
        rw [outcome_bind, outcome_lookup]
        cases store.funcs.find? request.func with
        | none => rfl
        | some func => exact outcome_bind _ _ _

-- What has been built is served at any depth.
theorem outcome_specializeWithin_cached {settings : Settings} {depth : Nat}
    {waiting : List Request} {request : Request} {store : Store} {spec : Specialization}
    (h : store.specialization? request = some spec) :
    outcome (specializeWithin settings depth waiting request) store =
      (.ok spec, hitCache store) := by
  cases depth with
  | zero => rw [outcome_specializeWithin_zero, h]
  | succ depth => rw [outcome_specializeWithin_succ, h]

theorem outcome_specializeWithin_new {settings : Settings} {depth : Nat} {waiting : List Request}
    {request : Request} {store : Store} {func : Func}
    (hnew : store.specialization? request = none) (hwaiting : request ∉ waiting)
    (hfunc : store.funcs.find? request.func = some func) :
    outcome (specializeWithin settings (depth + 1) waiting request) store =
      (outcome (build settings
        (invokeWith (specializeWithin settings depth (request :: waiting))) func request.args)
        store).andThen fun spec => outcome (keep request spec) := by
  simp only [outcome_specializeWithin_succ, hnew, if_neg hwaiting, hfunc]

-- A request that is served without having been built before is built.
theorem built_of_specializeWithin {settings : Settings} {depth : Nat} {waiting : List Request}
    {request : Request} {store later : Store} {spec : Specialization}
    (hnew : store.specialization? request = none)
    (h : outcome (specializeWithin settings depth waiting request) store = (.ok spec, later)) :
    ∃ below func built between, depth = below + 1 ∧ request ∉ waiting ∧
      store.funcs.find? request.func = some func ∧
      outcome (build settings (invokeWith (specializeWithin settings below (request :: waiting)))
        func request.args) store = (.ok built, between) ∧
      outcome (keep request built) between = (.ok spec, later) := by
  cases depth with
  | zero =>
      rw [outcome_specializeWithin_zero, hnew] at h
      cases h
  | succ below =>
      by_cases hwaiting : request ∈ waiting
      · simp only [outcome_specializeWithin_succ, hnew, if_pos hwaiting] at h
        cases h
      · cases hfunc : store.funcs.find? request.func with
        | none =>
            simp only [outcome_specializeWithin_succ, hnew, if_neg hwaiting, hfunc] at h
            cases h
        | some func =>
            rw [outcome_specializeWithin_new hnew hwaiting hfunc] at h
            rcases hbuild : outcome (build settings
              (invokeWith (specializeWithin settings below (request :: waiting))) func
              request.args) store with ⟨error | built, between⟩ <;> rw [hbuild] at h
            · cases h
            · exact ⟨below, func, built, between, rfl, hwaiting, rfl, hbuild, h⟩

theorem outcome_keep_ok (request : Request) (spec : Specialization) (store : Store) :
    ∃ kept,
      outcome (keep request spec) store = (.ok kept, (outcome (keep request spec) store).2) := by
  rw [outcome_keep]
  split
  · exact ⟨_, rfl⟩
  · exact ⟨_, rfl⟩

theorem outcome_specialize (settings : Settings) (name : String) (args : List Ty) (store : Store) :
    outcome (specialize settings name args) store =
      if store.funcs.contains name then
        outcome (specializeWithin settings settings.limits.maxDepth [] ⟨name, args⟩) store
      else (.error (.unknownFunc name), store) := by
  unfold specialize
  rw [outcome_bind, outcome_isRegistered, Outcome.andThen_ok]
  cases NameMap.contains store.funcs name <;> rfl

-- A definition that is accepted is known already, or takes a free name.
theorem register_ok {func known : Func} {store later : Store}
    (h : outcome (register func) store = (.ok known, later)) :
    later = store ∨ store.funcs.find? func.name = none ∧
      later = { store with funcs := store.funcs.insert func.name func } := by
  rw [outcome_register] at h
  split at h
  · split at h
    · cases h
      exact Or.inl rfl
    · cases h
  · rename_i hfree
    cases h
    exact Or.inr ⟨hfree, rfl⟩

theorem register_error {func : Func} {store later : Store} {error : SpecializeError}
    (h : outcome (register func) store = (.error error, later)) : later = store := by
  rw [outcome_register] at h
  split at h
  · split at h
    · cases h
    · cases h
      rfl
  · cases h

theorem outcome_specializeFunc (settings : Settings) (func : Func) (args : List Ty) (store : Store) :
    outcome (specializeFunc settings func args) store =
      (outcome (register func) store).andThen fun known =>
        outcome (specialize settings known.name args) :=
  outcome_bind _ _ _

theorem outcome_returnType (settings : Settings) (name : String) (args : List Ty) (store : Store) :
    outcome (returnType settings name args) store =
      (outcome (specialize settings name args) store).andThen fun spec later =>
        (.ok spec.returnType, later) :=
  outcome_bind _ _ _

end RankPoly.Session
