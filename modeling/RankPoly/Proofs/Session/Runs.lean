import RankPoly.Proofs.AppendOnly
import RankPoly.Proofs.Session.Moments

namespace RankPoly

open Session

section Runs

variable {settings : Settings} {below : List Request} {moment : Moment} {store : Store}

-- How work on what is being built ends: the stack is as it was, or an error has stopped
-- the run.
def Runs.Ends (settings : Settings) (moment : Moment) (below : List Request) (later : Store) :
    Option SpecializeError → Prop
  | none => Runs settings below moment ⟨none, below, later⟩
  | some error => ∃ stack, Stopped settings below moment error later stack

-- Work that ends so.
def Runs.Done {α : Type} (settings : Settings) (moment : Moment) (below : List Request)
    (o : Outcome α) : Prop :=
  Runs.Ends settings moment below o.2 o.error?

theorem Runs.Done.andThen {α β : Type} {o : Outcome α} {k : α → Store → Outcome β}
    (h : Runs.Done settings moment below o)
    (hk : ∀ a later, Runs settings below moment ⟨none, below, later⟩ →
      Runs.Done settings moment below (k a later)) :
    Runs.Done settings moment below (o.andThen k) := by
  rcases o with ⟨error | a, later⟩
  · exact h
  · exact hk a later h

theorem Runs.Done.of_runs {α : Type} {o : Outcome α} {next : Moment}
    (h : Runs settings below moment next) (ho : Runs.Done settings next below o) :
    Runs.Done settings moment below o := by
  rcases o with ⟨error | a, later⟩
  · obtain ⟨stack, hstack⟩ := ho
    exact ⟨stack, .of_runs h hstack⟩
  · exact h.trans ho

theorem Runs.Done.of_leaves {α : Type} {o : Outcome α}
    (h : o.Leaves (fun _ later => Runs settings below moment ⟨none, below, later⟩)
      fun error later => Runs.Ends settings moment below later (some error)) :
    Runs.Done settings moment below o := by
  rcases o with ⟨error | a, later⟩
  · exact h
  · exact h

theorem Runs.Done.leaves {α : Type} {o : Outcome α} (h : Runs.Done settings moment below o) :
    o.Leaves (fun _ later => Runs settings below moment ⟨none, below, later⟩)
      fun error later => Runs.Ends settings moment below later (some error) := by
  rcases o with ⟨error | a, later⟩
  · exact h
  · exact h

-- A step that leaves the stack as it is.
theorem Runs.stay {later : Store} (h : Runs settings below moment ⟨none, below, store⟩)
    (hstep : Step settings ⟨none, below, store⟩ ⟨none, below, later⟩) :
    Runs settings below moment ⟨none, below, later⟩ :=
  h.step hstep List.suffix_rfl

theorem Runs.raise {later : Store} {error : SpecializeError}
    (h : Runs settings below moment ⟨none, below, store⟩)
    (hstep : Step settings ⟨none, below, store⟩ ⟨some error, below, later⟩) :
    Runs.Ends settings moment below later (some error) :=
  ⟨below, .raise h hstep⟩

theorem Runs.Ends.runs {later : Store} {error : Option SpecializeError}
    (h : Runs.Ends settings moment below later error) :
    Runs settings below moment ⟨error, below, later⟩ := by
  cases error with
  | none => exact h
  | some error =>
      obtain ⟨stack, hstack⟩ := h
      exact hstack.runs

-- A function that serves requests in the course of runs.
def ServesRunning (settings : Settings) (below : List Request)
    (serve : Request → Session Specialization) : Prop :=
  ∀ request store, Runs.Done settings ⟨none, below, store⟩ below (outcome (serve request) store)

namespace ServesRunning

variable {serve : Request → Session Specialization}

theorem joinResults (h : ServesRunning settings below serve) (args : List Ty) :
    ∀ (members : List Closure) (joined : Ty) {store : Store},
      Runs settings below moment ⟨none, below, store⟩ →
        Runs.Done settings moment below (outcome (Session.joinResults serve args members joined) store)
  | [], _, _, hruns => hruns
  | member :: rest, joined, store, hruns => by
      rw [outcome_joinResults_cons]
      refine Runs.Done.andThen (.of_runs hruns (h _ store)) fun spec later hlater => ?_
      cases joined.combine spec.returnType with
      | error error => exact hlater.raise (.raise _)
      | ok joined => exact joinResults h args rest joined hlater

theorem invokeWith (h : ServesRunning settings below serve)
    (hruns : Runs settings below moment ⟨none, below, store⟩) (callee : Ty) (args : List Ty) :
    Runs.Done settings moment below (outcome (Session.invokeWith serve callee args) store) := by
  rw [outcome_invokeWith]
  cases hcall : store.callType? ⟨callee, args⟩ with
  | some ty => exact hruns.stay (.hitMemo hcall)
  | none =>
      cases callee.members? with
      | none => exact hruns.raise (.raise _)
      | some members =>
          exact (h.joinResults args members .unknown hruns).andThen fun ty later hlater =>
            hlater.stay (.remember ⟨callee, args⟩ ty)

section Annotate

-- Requests that are served by others, to the same effect at the moments of a run.
variable {serve' : Request → Session Specialization}
  (hsame : ∀ request {store}, Runs settings below moment ⟨none, below, store⟩ →
    outcome (serve' request) store = outcome (serve request) store)
include hsame

theorem joinResults_congr (h : ServesRunning settings below serve) (args : List Ty) :
    ∀ (members : List Closure) (joined : Ty) {store : Store},
      Runs settings below moment ⟨none, below, store⟩ →
        outcome (Session.joinResults serve' args members joined) store =
          outcome (Session.joinResults serve args members joined) store
  | [], _, _, _ => rfl
  | member :: rest, joined, store, hruns => by
      have hfirst := Runs.Done.of_runs hruns (h ⟨member.func, member.captured ++ args⟩ store)
      rw [outcome_joinResults_cons, outcome_joinResults_cons, hsame _ hruns]
      rcases houtcome : outcome (serve ⟨member.func, member.captured ++ args⟩) store
        with ⟨error | spec, later⟩ <;> rw [houtcome] at hfirst
      · rfl
      · simp only [Outcome.andThen_ok]
        cases joined.combine spec.returnType with
        | error error => rfl
        | ok joined => exact joinResults_congr h args rest joined hfirst

theorem invokeWith_congr (h : ServesRunning settings below serve)
    (hruns : Runs settings below moment ⟨none, below, store⟩) (callee : Ty) (args : List Ty) :
    outcome (Session.invokeWith serve' callee args) store =
      outcome (Session.invokeWith serve callee args) store := by
  rw [outcome_invokeWith, outcome_invokeWith]
  cases store.callType? ⟨callee, args⟩ with
  | some ty => rfl
  | none =>
      cases callee.members? with
      | none => rfl
      | some members => simp only [joinResults_congr hsame h args members .unknown hruns]

-- An annotation draws names, adds wrappers and makes calls, at moments of one run.
theorem leaving (h : ServesRunning settings below serve) (limit : Nat) :
    Annotate.Leaving (fun _ later => Runs settings below moment ⟨none, below, later⟩)
      (fun error later => Runs.Ends settings moment below later (some error)) (fun _ => True)
      { loopLimit := limit, invoke := Session.invokeWith serve }
      { loopLimit := limit, invoke := Session.invokeWith serve' } :=
  .of_store rfl (fun name h => h.stay (.draw name)) (fun op h => h.stay (.addWrapper op))
    (fun error h => h.raise (.raise error))
    (fun callee args hruns => h.invokeWith_congr hsame hruns callee args)
    fun callee args hruns => (h.invokeWith hruns callee args).leaves

end Annotate

theorem annotate (h : ServesRunning settings below serve)
    (hruns : Runs settings below moment ⟨none, below, store⟩) (limit : Nat) (func : Func)
    (args : List Ty) :
    Runs.Done settings moment below
      (outcome (func.annotate { loopLimit := limit, invoke := Session.invokeWith serve } args)
        store) :=
  .of_leaves (Func.annotate_leaves (h.leaving (fun _ _ _ => rfl) limit) func args hruns)

-- What a build asks for is all that it needs of what serves it.
theorem build_congr {serve' : Request → Session Specialization}
    (h : ServesRunning settings below serve)
    (hsame : ∀ request {later}, Runs settings below ⟨none, below, inferring store⟩
      ⟨none, below, later⟩ → outcome (serve' request) later = outcome (serve request) later)
    (func : Func) (args : List Ty) :
    outcome (build settings (Session.invokeWith serve') func args) store =
      outcome (build settings (Session.invokeWith serve) func args) store := by
  have hannotate := Func.annotate_congr (h.leaving hsame settings.limits.maxLoopIterations) func
    args (.refl ⟨none, below, inferring store⟩)
  rw [outcome_build, outcome_build, hannotate]

end ServesRunning

-- What waits for a build is not built by it.
theorem Session.build_unbuilt {depth : Nat} {waiting : List Request} {pending : Request}
    (hpending : pending ∈ waiting) (hstore : store.specialization? pending = none) (func : Func)
    (args : List Ty) :
    (outcome (build settings (Session.invokeWith (specializeWithin settings depth waiting)) func
      args) store).2.specialization? pending = none := by
  have hleaves := build_leaves settings (specializeWithin settings depth waiting) func args store
  have hserve : ∀ request {store : Store}, store.specialization? pending = none →
      (outcome (specializeWithin settings depth waiting request) store).2.specialization? pending =
        none := fun request _ => specializeWithin_unbuilt request hpending
  rcases hbuild : outcome (build settings (Session.invokeWith
    (specializeWithin settings depth waiting)) func args) store with ⟨error | spec, later⟩ <;>
    rw [hbuild] at hleaves
  · exact FailsAlong.unbuilt hserve hleaves hstore
  · exact Course.unbuilt hserve hleaves hstore

-- What comes of a build once the annotation is done.
theorem Session.outcome_build_of_annotate {invoke : Ty → List Ty → Session Ty} {func : Func}
    {args : List Ty} {last : Store} {given : Specialization}
    (h : outcome (func.annotate { loopLimit := settings.limits.maxLoopIterations, invoke } args)
      (inferring store) = (.ok given, last)) :
    outcome (build settings invoke func args) store =
      match settings.coercion given with
      | .ok coerced => (settings.optimizer coerced, optimizing (coercing last))
      | .error error => (.error error, coercing last) := by
  rw [outcome_build, h, Outcome.andThen_ok, outcome_bind, outcome_runPass]
  cases settings.coercion given with
  | ok coerced => exact outcome_runPass _ _ _ _
  | error error => rfl

-- A signature that is not known yet is begun, and in the end it is kept, or an error gets
-- past it.
theorem Runs.Done.begun {depth : Nat} {waiting : List Request} {request : Request} {func : Func}
    (hdepth : settings.limits.maxDepth - waiting.length = depth + 1)
    (hserve : ServesRunning settings (request :: waiting)
      (specializeWithin settings depth (request :: waiting)))
    (hnew : store.specialization? request = none) (hmem : request ∉ waiting)
    (hfunc : store.funcs.find? request.func = some func) :
    Runs.Done settings ⟨none, waiting, store⟩ waiting
      (outcome (specializeWithin settings (depth + 1) waiting request) store) := by
  have hsuffix : waiting <:+ request :: waiting := List.suffix_cons request waiting
  have hbegin : Runs settings waiting ⟨none, waiting, store⟩
      ⟨none, request :: waiting, inferring store⟩ :=
    (Runs.refl _).step (.begin hnew hmem (by omega) hfunc) hsuffix
  have hannotate := hserve.annotate (.refl ⟨none, request :: waiting, inferring store⟩)
    settings.limits.maxLoopIterations func request.args
  have houtcome : outcome (specializeWithin settings (depth + 1) waiting request) store = _ :=
    outcome_specializeWithin_new hnew hmem hfunc
  -- What stops the build is what the request fails with.
  have hstopped : ∀ {error : SpecializeError} {later : Store},
      outcome (build settings (invokeWith (specializeWithin settings depth (request :: waiting)))
        func request.args) store = (.error error, later) →
      Runs.Ends settings ⟨none, request :: waiting, inferring store⟩ (request :: waiting) later
        (some error) →
      Runs.Done settings ⟨none, waiting, store⟩ waiting
        (outcome (specializeWithin settings (depth + 1) waiting request) store) := by
    rintro error later hbuild ⟨stack, hstack⟩
    have hfailed : outcome (specializeWithin settings (depth + 1) waiting request) store =
        (.error error, later) := by
      rw [houtcome, hbuild, Outcome.andThen_error]
    rw [hfailed]
    exact ⟨stack, .begun (hdepth ▸ hfailed) hbegin hstack⟩
  rcases hgiven : outcome (func.annotate
    { loopLimit := settings.limits.maxLoopIterations
      invoke := invokeWith (specializeWithin settings depth (request :: waiting)) } request.args)
    (inferring store) with ⟨error | given, last⟩ <;> rw [hgiven] at hannotate
  · refine hstopped ?_ hannotate
    rw [outcome_build, hgiven, Outcome.andThen_error]
  · have hbuild := outcome_build_of_annotate hgiven
    cases hcoerced : settings.coercion given with
    | error error =>
        simp only [hcoerced] at hbuild
        exact hstopped hbuild (Runs.raise hannotate (.refuseCoercion hcoerced))
    | ok coerced =>
        simp only [hcoerced] at hbuild
        cases hspec : settings.optimizer coerced with
        | error error =>
            rw [hspec] at hbuild
            exact hstopped hbuild (Runs.raise hannotate (.refuseOptimizer hcoerced hspec))
        | ok spec =>
            have hpending : request ∈ request :: waiting := List.mem_cons_self
            have hunbuilt : (outcome (build settings (invokeWith (specializeWithin settings depth
                (request :: waiting))) func request.args) store).2.specialization? request = none :=
              build_unbuilt hpending hnew func request.args
            rw [hbuild, hspec] at hunbuilt
            have hfinish : Step settings ⟨none, request :: waiting, last⟩ ⟨none, waiting, _⟩ :=
              .finish hunbuilt hcoerced hspec
            rw [houtcome, hbuild, hspec, Outcome.andThen_ok, outcome_keep, hunbuilt]
            exact hbegin.trans ((hannotate.weaken hsuffix).step hfinish List.suffix_rfl)

-- Requests are served by runs that end, with a value or an error, on the stack that they
-- started from.
theorem servesRunning_specializeWithin (settings : Settings) :
    ∀ (depth : Nat) {waiting : List Request}, settings.limits.maxDepth - waiting.length = depth →
      ServesRunning settings waiting (specializeWithin settings depth waiting)
  | 0, waiting, _, request, store => by
      rw [outcome_specializeWithin_zero]
      cases hspec : store.specialization? request with
      | some spec => exact (Runs.refl _).stay (.hitCache hspec)
      | none => exact (Runs.refl _).raise (.raise _)
  | depth + 1, waiting, hdepth, request, store => by
      cases hspec : store.specialization? request with
      | some spec =>
          rw [outcome_specializeWithin_cached hspec]
          exact (Runs.refl _).stay (.hitCache hspec)
      | none =>
          by_cases hmem : request ∈ waiting
          · simp only [outcome_specializeWithin_succ, hspec, if_pos hmem]
            exact (Runs.refl _).raise (.raise _)
          · cases hfunc : store.funcs.find? request.func with
            | none =>
                simp only [outcome_specializeWithin_succ, hspec, if_neg hmem, hfunc]
                exact (Runs.refl _).raise (.raise _)
            | some func =>
                have hbelow : settings.limits.maxDepth - (request :: waiting).length = depth := by
                  rw [List.length_cons]
                  omega
                exact .begun hdepth (servesRunning_specializeWithin settings depth hbelow) hspec
                  hmem hfunc

-- Whatever is asked for is a run that starts with nothing being built, and ends so.
theorem Operation.ends (settings : Settings) (store : Store) (op : Operation) :
    Runs.Ends settings ⟨none, [], op.entered store⟩ [] (op.after settings store)
      (op.error? settings store) := by
  have hserve : ServesRunning settings []
      (specializeWithin settings settings.limits.maxDepth []) :=
    servesRunning_specializeWithin settings _ (Nat.sub_zero _)
  have hspecialize : ∀ (name : String) (args : List Ty) (store : Store),
      Runs.Done settings ⟨none, [], store⟩ []
        (outcome (Session.specialize settings name args) store) := by
    intro name args store
    rw [outcome_specialize]
    split
    · exact hserve _ store
    · exact (Runs.refl _).raise (.raise _)
  cases op with
  | register func =>
      simp only [Operation.entered, Operation.error?, Operation.after]
      rcases outcome (Session.register func) store with ⟨error | known, later⟩
      · exact (Runs.refl _).raise (.raise error)
      · exact .refl _
  | specialize name args => exact hspecialize name args store
  | specializeFunc func args =>
      simp only [Operation.entered, Operation.error?, Operation.after, outcome_specializeFunc]
      rcases outcome (Session.register func) store with ⟨error | known, later⟩
      · exact (Runs.refl _).raise (.raise error)
      · exact hspecialize known.name args later
  | returnType name args =>
      have hdone : Runs.Done settings ⟨none, [], store⟩ []
          (outcome (Session.returnType settings name args) store) := by
        rw [outcome_returnType]
        exact (hspecialize name args store).andThen fun _ _ hlater => hlater
      exact hdone
  | invocationType callee args => exact hserve.invokeWith (.refl _) callee args
  | primWrapper op =>
      simp only [Operation.entered, Operation.error?, Operation.after, outcome_primWrapper]
      exact (Runs.refl _).stay (.addWrapper op)

end Runs

end RankPoly
