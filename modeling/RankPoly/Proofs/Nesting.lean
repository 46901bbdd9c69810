import RankPoly.Demo
import RankPoly.Proofs.Session.Runs

namespace RankPoly

namespace Session

-- How a request is served when nothing but the stack of what is being built bounds the
-- depth, and what it needs is served by `serve`.
def serveStep (settings : Settings) (serve : List Request → Request → Session Specialization)
    (building : List Request) (request : Request) : Session Specialization := do
  match ← cached request with
  | some spec => return spec
  | none =>
    if request ∈ building ∨ settings.limits.maxDepth ≤ building.length then
      throw (.recursive request.func request.args)
    let func ← lookup request.func
    let spec ← build settings (invokeWith (serve (request :: building))) func request.args
    keep request spec

-- So many levels of it, with anything at all below them.
def serveLevels (settings : Settings) (serve : List Request → Request → Session Specialization) :
    (levels : Nat) → List Request → Request → Session Specialization
  | 0 => serve
  | levels + 1 => serveStep settings (serveLevels settings serve levels)

section Levels

variable {settings : Settings} {serve : List Request → Request → Session Specialization}
  {building : List Request} {store : Store}

theorem serveStep_full (hfull : settings.limits.maxDepth ≤ building.length) (request : Request) :
    serveStep settings serve building request = specializeWithin settings 0 building request := by
  unfold serveStep specializeWithin
  refine bind_congr fun found => ?_
  cases found with
  | some spec => rfl
  | none => exact if_pos (Or.inr hfull)

theorem serveStep_room {depth : Nat} (hroom : building.length < settings.limits.maxDepth)
    (hserve : ∀ request, serve (request :: building) =
      specializeWithin settings depth (request :: building)) (request : Request) :
    serveStep settings serve building request =
      specializeWithin settings (depth + 1) building request := by
  unfold serveStep specializeWithin
  refine bind_congr fun found => ?_
  cases found with
  | some spec => rfl
  | none =>
      rw [hserve]
      exact if_congr (or_iff_left (Nat.not_le.mpr hroom)) rfl rfl

-- With more levels than the stack leaves room for, what is below them is never reached.
theorem serveLevels_eq : ∀ {levels : Nat} {building : List Request},
    settings.limits.maxDepth - building.length < levels →
      serveLevels settings serve levels building =
        specializeWithin settings (settings.limits.maxDepth - building.length) building
  | levels + 1, building, hlevels => by
      funext request
      rcases Nat.lt_or_ge building.length settings.limits.maxDepth with hroom | hfull
      · obtain ⟨depth, hdepth⟩ := Nat.exists_eq_add_of_lt hroom
        have hbelow : settings.limits.maxDepth - building.length = depth + 1 := by omega
        rw [hbelow]
        refine serveStep_room hroom (fun inner => ?_) request
        have hinner : settings.limits.maxDepth - (inner :: building).length = depth := by
          rw [List.length_cons]
          omega
        rw [serveLevels_eq (by omega), hinner]
      · rw [Nat.sub_eq_zero_of_le hfull]
        exact serveStep_full hfull request

-- One level of it, where what it needs is served as requests are.
theorem serveStep_specializeWithin (request : Request) :
    serveStep settings
        (specializeWithin settings (settings.limits.maxDepth - (request :: building).length))
        building request =
      specializeWithin settings (settings.limits.maxDepth - building.length) building request := by
  rw [List.length_cons]
  rcases Nat.lt_or_ge building.length settings.limits.maxDepth with hroom | hfull
  · have hdepth : settings.limits.maxDepth - building.length =
        settings.limits.maxDepth - (building.length + 1) + 1 := by omega
    rw [hdepth]
    exact serveStep_room hroom (fun _ => rfl) request
  · rw [Nat.sub_eq_zero_of_le hfull]
    exact serveStep_full hfull request

-- Of what is below a level only the answers matter that it asks for, in the course of a run.
theorem serveStep_congr {request : Request}
    (hserve : ∀ inner {later},
      Runs settings building ⟨none, building, store⟩ ⟨none, request :: building, later⟩ →
        outcome (serve (request :: building) inner) later =
          outcome (specializeWithin settings
            (settings.limits.maxDepth - (request :: building).length) (request :: building) inner)
            later) :
    outcome (serveStep settings serve building request) store =
      outcome (specializeWithin settings (settings.limits.maxDepth - building.length) building
        request) store := by
  rw [← serveStep_specializeWithin]
  refine outcome_bind_congr fun found known hfound => ?_
  rw [outcome_cached] at hfound
  split at hfound <;> cases hfound
  · rfl
  · rename_i hnew
    by_cases hrefused : request ∈ building ∨ settings.limits.maxDepth ≤ building.length
    · simp only [if_pos hrefused]
      exact outcome_bind_congr fun _ _ hthrow => nomatch hthrow
    · obtain ⟨hmem, hroom⟩ := not_or.mp hrefused
      simp only [if_neg hrefused]
      refine outcome_bind_congr fun func later hfunc => ?_
      rw [outcome_lookup] at hfunc
      split at hfunc <;> cases hfunc
      rename_i hfunc
      have hsuffix : building <:+ request :: building := List.suffix_cons request building
      have hbegin : Runs settings building ⟨none, building, store⟩
          ⟨none, request :: building, inferring store⟩ :=
        (Runs.refl _).step (.begin hnew hmem (Nat.lt_of_not_le hroom) hfunc) hsuffix
      have hbuild := (servesRunning_specializeWithin settings _ rfl).build_congr
        (fun inner _ hruns => hserve inner (hbegin.trans (hruns.weaken hsuffix))) func request.args
      rw [outcome_bind, outcome_bind, hbuild]

-- So it is with any number of levels and what the lowest of them asks for, where the stack
-- is higher by one for each.
theorem serveLevels_congr : ∀ {levels : Nat} {building : List Request} {store : Store}
    {request : Request},
    (∀ stack inner {later}, stack.length = building.length + levels →
      Runs settings building ⟨none, building, store⟩ ⟨none, stack, later⟩ →
        outcome (serve stack inner) later =
          outcome (specializeWithin settings (settings.limits.maxDepth - stack.length) stack inner)
            later) →
    outcome (serveLevels settings serve levels building request) store =
      outcome (specializeWithin settings (settings.limits.maxDepth - building.length) building
        request) store
  | 0, building, _, request, hserve => hserve building request rfl (.refl _)
  | levels + 1, building, store, request, hserve => by
      refine serveStep_congr fun inner later hruns => ?_
      refine serveLevels_congr fun stack inner' later' hlength hruns' => ?_
      rw [List.length_cons] at hlength
      exact hserve stack inner' (by omega) (hruns.trans (hruns'.weaken (List.suffix_cons _ _)))

end Levels

end Session

open Session

-- That a call is made so many levels below a request, where `stack` is being built and the
-- store is `later`: to answer it in another way, and nothing else, can make a difference to
-- what comes of the request.
def CallsBelow (settings : Settings) (waiting : List Request) (request : Request) (store : Store)
    (levels : Nat) (stack : List Request) (inner : Request) (later : Store) : Prop :=
  ∃ serve : List Request → Request → Session Specialization,
    (∀ stack' inner' later', (stack', inner', later') ≠ (stack, inner, later) →
      outcome (serve stack' inner') later' =
        outcome (specializeWithin settings (settings.limits.maxDepth - stack'.length) stack' inner')
          later') ∧
    outcome (serveLevels settings serve levels waiting request) store ≠
      outcome (specializeWithin settings (settings.limits.maxDepth - waiting.length) waiting
        request) store

-- What holds of a call. It is made in the course of the request, while what is being
-- built is in order, and when it returns, with a value or an error, the stack is as it was.
structure Nested (settings : Settings) (waiting : List Request) (store : Store) (levels : Nat)
    (stack : List Request) (inner : Request) (later : Store) : Prop where
  height : stack.length = waiting.length + levels
  disciplined : Moment.Disciplined settings ⟨none, stack, later⟩
  reached : Runs settings waiting ⟨none, waiting, store⟩ ⟨none, stack, later⟩
  returns : Runs settings stack ⟨none, stack, later⟩
    ⟨(outcome (specializeWithin settings (settings.limits.maxDepth - stack.length) stack inner)
        later).error?, stack,
      (outcome (specializeWithin settings (settings.limits.maxDepth - stack.length) stack inner)
        later).2⟩

-- How a request is served while others are being built. There is an end to what it asks for
-- in turn, and at all moments until then what is being built is in order, with what waits
-- for the request at the bottom. In the end nothing else is there. The same is so of every
-- call that is made on the way, however far below.
structure Nests (settings : Settings) (waiting : List Request) (request : Request)
    (store : Store) : Prop where
  ends : ∀ serve levels, settings.limits.maxDepth - waiting.length < levels →
    serveLevels settings serve levels waiting request =
      specializeWithin settings (settings.limits.maxDepth - waiting.length) waiting request
  moments : ∃ path : List Moment,
    (⟨none, waiting, store⟩ :: path).IsChain (Step settings) ∧
    (⟨none, waiting, store⟩ :: path).getLast? =
      some ⟨(outcome (specializeWithin settings (settings.limits.maxDepth - waiting.length)
          waiting request) store).error?, waiting,
        (outcome (specializeWithin settings (settings.limits.maxDepth - waiting.length)
          waiting request) store).2⟩ ∧
    ∀ moment ∈ (⟨none, waiting, store⟩ :: path : List Moment),
      moment.Disciplined settings ∧ waiting <:+ moment.building
  calls : ∀ {levels stack inner later},
    CallsBelow settings waiting request store levels stack inner later →
      Nested settings waiting store levels stack inner later

section Calls

variable {settings : Settings} {waiting stack : List Request} {request inner : Request}
  {store later : Store} {levels : Nat}

-- There is a failure that an outcome is not.
theorem Outcome.exists_ne_error {α : Type} (o : Outcome α) (later : Store) :
    ∃ error, o ≠ (.error error, later) := by
  rcases o with ⟨error | a, last⟩
  · by_cases hunknown : error = .unknownFunc ""
    · exact ⟨.duplicateFunc "", by rw [hunknown]; nofun⟩
    · exact ⟨.unknownFunc "", by simp [hunknown]⟩
  · exact ⟨.unknownFunc "", nofun⟩

open Classical in
-- A call is made if the request fails whenever the call does.
theorem CallsBelow.of_fails
    (h : ∀ serve error, outcome (serve stack inner) later = (.error error, later) →
      outcome (serveLevels settings serve levels waiting request) store = (.error error, later)) :
    CallsBelow settings waiting request store levels stack inner later := by
  obtain ⟨error, herror⟩ := (outcome (specializeWithin settings
    (settings.limits.maxDepth - waiting.length) waiting request) store).exists_ne_error later
  let serve : List Request → Request → Session Specialization := fun stack' inner' =>
    ExceptT.mk fun now =>
      if (stack', inner', now) = (stack, inner, later) then (.error error, later)
      else outcome (specializeWithin settings (settings.limits.maxDepth - stack'.length) stack'
        inner') now
  have hserve : outcome (serve stack inner) later = (.error error, later) := if_pos rfl
  refine ⟨serve, fun stack' inner' later' hother => if_neg hother, ?_⟩
  rw [h serve error hserve]
  exact herror.symm

-- A function that calls itself with ever larger pairs.
def growing : Func :=
  Demo.define "grow" ["x"] [.ret (.invoke (Demo.named "grow") [.tuple [.var "x", .var "x"]])]

-- Whatever it is asked for with, it asks for itself with a pair of that.
theorem growing_callsBelow {ty : Ty}
    (hty : ty ≠ .unknown) (hroom : waiting.length < settings.limits.maxDepth)
    (hmem : ⟨"grow", [ty]⟩ ∉ waiting) (hfunc : store.funcs.find? "grow" = some growing)
    (hnew : store.specialization? ⟨"grow", [ty]⟩ = none)
    (hmiss : store.callType? ⟨.closure ⟨"grow", []⟩, [.tuple [ty, ty]]⟩ = none) :
    CallsBelow settings waiting ⟨"grow", [ty]⟩ store 1 (⟨"grow", [ty]⟩ :: waiting)
      ⟨"grow", [.tuple [ty, ty]]⟩
      { inferring store with fresh := (store.fresh.refresh "x").2 } := by
  refine .of_fails fun serve error hserve => ?_
  -- up to the call nothing depends on what serves it
  let ctx : Annotate.Context :=
    { loopLimit := settings.limits.maxLoopIterations
      invoke := invokeWith (serve (⟨"grow", [ty]⟩ :: waiting)) }
  let known := (store.fresh.refresh "x").1
  let locals : Locals := { names := [("x", known)], env := [(known, ty)] }
  let drawn : Store := { inferring store with fresh := (store.fresh.refresh "x").2 }
  have hcall : outcome (ctx.invoke (.closure ⟨"grow", []⟩) [.tuple [ty, ty]]) drawn =
      (.error error, drawn) := by
    have hmiss : drawn.callType? ⟨.closure ⟨"grow", []⟩, [.tuple [ty, ty]]⟩ = none := hmiss
    simp only [ctx, outcome_invokeWith, hmiss, Ty.members?, outcome_joinResults_cons,
      List.nil_append, drawn, hserve, Outcome.andThen_error]
  have hknown : drawn.funcs.contains "grow" = true := NameMap.contains_iff.mpr ⟨growing, hfunc⟩
  have hread : Annotate.outcome (Annotate.read "x") locals drawn =
      (.ok ((known, ty), locals), drawn) := by
    cases ty <;> simp_all [Annotate.outcome_read, locals, NameMap.find?]
  have hbody : Annotate.outcome (Annotate.block ctx growing.body) locals drawn =
      (.error error, drawn) := by
    simp [growing, Demo.define, Demo.named, Annotate.block, Annotate.stmt, Annotate.expr,
      Annotate.exprs, Annotate.outcome_bind, Annotate.outcome_lift, outcome_isRegistered, hknown,
      hread, Annotate.requireCallable, TypedExpr.ty, Ty.isCallable, Annotate.typesOf, hcall]
  have hbuild : outcome (build settings (invokeWith (serve (⟨"grow", [ty]⟩ :: waiting))) growing
      [ty]) store = (.error error, drawn) := by
    have hbind : growing.params.bind [ty] = .ok ⟨[("x", ty)], [ty]⟩ := rfl
    have hparams : Annotate.outcome (Annotate.bindParams [("x", ty)]) {} (inferring store) =
        (.ok ((), locals), drawn) := rfl
    have hget : Annotate.outcome get locals drawn = (.ok (locals, locals), drawn) := rfl
    rw [outcome_build, Comparison.outcome_annotate]
    change ((Annotate.outcome (Annotate.func ctx growing [ty]) {} (inferring store)).andThen
      _).andThen _ = _
    simp only [Annotate.func, hbind, Annotate.outcome_bind, hparams, Outcome.andThen_ok,
      hget, hbody, Outcome.andThen_error]
  change outcome (serveStep settings serve waiting ⟨"grow", [ty]⟩) store = (.error error, drawn)
  unfold serveStep
  simp only [outcome_bind, outcome_cached, hnew, Outcome.andThen_ok, hmem, false_or,
    Nat.not_le.mpr hroom, if_false, outcome_lookup, hfunc, hbuild, Outcome.andThen_error]

-- Requests are served by runs, on the stack that they started from.
theorem runs_specializeWithin (settings : Settings) (building : List Request) (request : Request)
    (store : Store) :
    Runs settings building ⟨none, building, store⟩
      ⟨(outcome (specializeWithin settings (settings.limits.maxDepth - building.length) building
          request) store).error?, building,
        (outcome (specializeWithin settings (settings.limits.maxDepth - building.length) building
          request) store).2⟩ :=
  Runs.Ends.runs (servesRunning_specializeWithin settings _ rfl request store)

-- A call that makes a difference to a request is made in the course of it.
theorem CallsBelow.nested
    (h : CallsBelow settings waiting request store levels stack inner later)
    (hwaiting : Moment.Disciplined settings ⟨none, waiting, store⟩) :
    Nested settings waiting store levels stack inner later := by
  obtain ⟨serve, hothers, hdiffers⟩ := h
  have hmade : stack.length = waiting.length + levels ∧
      Runs settings waiting ⟨none, waiting, store⟩ ⟨none, stack, later⟩ := by
    -- otherwise all calls in the course of the request are answered as they would be
    by_contra hnever
    refine hdiffers (serveLevels_congr fun stack' inner' later' hheight hruns => ?_)
    refine hothers stack' inner' later' fun heq => hnever ?_
    cases heq
    exact ⟨hheight, hruns⟩
  exact
    { height := hmade.1
      disciplined := hmade.2.disciplined hwaiting
      reached := hmade.2
      returns := runs_specializeWithin settings stack inner later }

end Calls

-- Whatever the registered functions are, a request ends, and it leaves the stack of what is
-- being built as it was.
theorem nesting_disciplined {settings : Settings} {waiting : List Request} {store : Store}
    (hwaiting : Moment.Disciplined settings ⟨none, waiting, store⟩) (request : Request) :
    Nests settings waiting request store where
  ends _ _ hlevels := congrFun (serveLevels_eq hlevels) request
  moments :=
    (runs_specializeWithin settings waiting request store).exists_path hwaiting List.suffix_rfl
  calls h := h.nested hwaiting

-- With one of its requests waiting there is room for two more, and the next call is made.
theorem growing_nests :
    let store := Operation.after { limits := { maxDepth := 3 } } {} (.register growing)
    let pair := Ty.tuple [.scalar .i64, .scalar .i64]
    let waiting : List Request := [⟨"grow", [.scalar .i64]⟩]
    let request : Request := ⟨"grow", [pair]⟩
    Moment.Disciplined { limits := { maxDepth := 3 } } ⟨none, waiting, store⟩ ∧
      Nests { limits := { maxDepth := 3 } } waiting request store ∧
      CallsBelow { limits := { maxDepth := 3 } } waiting request store 1 (request :: waiting)
        ⟨"grow", [.tuple [pair, pair]]⟩
        { inferring store with fresh := (store.fresh.refresh "x").2 } := by
  intro store pair waiting request
  have hwaiting : Moment.Disciplined { limits := { maxDepth := 3 } } ⟨none, waiting, store⟩ :=
    { distinct := List.pairwise_singleton _ _
      unbuilt := fun _ _ => rfl
      bounded := by decide }
  exact ⟨hwaiting, nesting_disciplined hwaiting request,
    growing_callsBelow nofun (by decide) (by decide) rfl rfl rfl⟩

end RankPoly
