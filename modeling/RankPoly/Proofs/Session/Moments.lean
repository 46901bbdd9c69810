import Mathlib.Logic.Relation
import RankPoly.Proofs.Session.InFlight

namespace RankPoly

open Session

-- A moment of a request: the error that is on its way out, if there is one, what is being
-- built, the innermost first, and the store.
structure Moment where
  error : Option SpecializeError
  building : List Request
  store : Store

namespace Session

-- The store once one more specialization has been through the first pass, or the second.
def coercing (store : Store) : Store :=
  { store with
    counters := { store.counters with coercionRuns := store.counters.coercionRuns + 1 } }

def optimizing (store : Store) : Store :=
  { store with
    counters := { store.counters with optimizerRuns := store.counters.optimizerRuns + 1 } }

end Session

-- One step of a request. What is begun is put on the stack of what is being built, and
-- taken off when it is kept, or when the error that stopped it gets past it.
inductive Step (settings : Settings) : Moment → Moment → Prop where
  | draw {building : List Request} {store : Store} (name : String) :
      Step settings ⟨none, building, store⟩
        ⟨none, building, { store with fresh := (store.fresh.refresh name).2 }⟩
  | addWrapper {building : List Request} {store : Store} (op : Prim) :
      Step settings ⟨none, building, store⟩ ⟨none, building, withWrapper op store⟩
  | hitCache {building : List Request} {store : Store} {request : Request}
      {spec : Specialization} : store.specialization? request = some spec →
      Step settings ⟨none, building, store⟩ ⟨none, building, hitCache store⟩
  | hitMemo {building : List Request} {store : Store} {call : Call} {ty : Ty} :
      store.callType? call = some ty →
      Step settings ⟨none, building, store⟩ ⟨none, building, hitMemo store⟩
  | remember {building : List Request} {store : Store} (call : Call) (ty : Ty) :
      Step settings ⟨none, building, store⟩
        ⟨none, building, { store with calls := (call, ty) :: store.calls }⟩
  | begin {building : List Request} {store : Store} {request : Request} {func : Func} :
      store.specialization? request = none → request ∉ building →
      building.length < settings.limits.maxDepth → store.funcs.find? request.func = some func →
      Step settings ⟨none, building, store⟩ ⟨none, request :: building, inferring store⟩
  | finish {building : List Request} {store : Store} {request : Request}
      {given coerced spec : Specialization} : store.specialization? request = none →
      settings.coercion given = .ok coerced → settings.optimizer coerced = .ok spec →
      Step settings ⟨none, request :: building, store⟩
        ⟨none, building,
          { optimizing (coercing store) with built := (request, spec) :: store.built }⟩
  | raise {building : List Request} {store : Store} (error : SpecializeError) :
      Step settings ⟨none, building, store⟩ ⟨some error, building, store⟩
  | refuseCoercion {building : List Request} {store : Store} {request : Request}
      {given : Specialization} {error : SpecializeError} :
      settings.coercion given = .error error →
      Step settings ⟨none, request :: building, store⟩
        ⟨some error, request :: building, coercing store⟩
  | refuseOptimizer {building : List Request} {store : Store} {request : Request}
      {given coerced : Specialization} {error : SpecializeError} :
      settings.coercion given = .ok coerced → settings.optimizer coerced = .error error →
      Step settings ⟨none, request :: building, store⟩
        ⟨some error, request :: building, optimizing (coercing store)⟩
  | unwind {building : List Request} {store : Store} {request : Request}
      {error : SpecializeError} :
      Step settings ⟨some error, request :: building, store⟩ ⟨some error, building, store⟩

-- Steps one after another, none of which takes anything off the stack that is below them.
def Runs (settings : Settings) (below : List Request) : Moment → Moment → Prop :=
  Relation.ReflTransGen fun moment next => Step settings moment next ∧ below <:+ next.building

-- What is being built at a moment: different signatures, none of which has been built, and
-- no more than are allowed.
structure Moment.Disciplined (settings : Settings) (moment : Moment) : Prop where
  distinct : moment.building.Nodup
  unbuilt : ∀ request ∈ moment.building, moment.store.specialization? request = none
  bounded : moment.building.length ≤ settings.limits.maxDepth

theorem Moment.Disciplined.start (settings : Settings) (store : Store) :
    Moment.Disciplined settings ⟨none, [], store⟩ :=
  ⟨.nil, nofun, Nat.zero_le _⟩

section Moments

variable {settings : Settings} {below : List Request} {moment next : Moment}

-- Only what can be begun is put on the stack, and what is built is taken off.
theorem Step.disciplined (h : Step settings moment next) (hmoment : moment.Disciplined settings) :
    next.Disciplined settings := by
  obtain ⟨hdistinct, hunbuilt, hbounded⟩ := hmoment
  cases h with
  | draw | hitCache | hitMemo | remember | raise | refuseCoercion | refuseOptimizer =>
      exact ⟨hdistinct, hunbuilt, hbounded⟩
  | addWrapper op =>
      refine ⟨hdistinct, fun request hmem => ?_, hbounded⟩
      have hrequest := hunbuilt request hmem
      unfold Store.specialization? at hrequest ⊢
      rwa [withWrapper_built]
  | begin hnew hmem hroom _ =>
      exact ⟨List.nodup_cons.mpr ⟨hmem, hdistinct⟩, List.forall_mem_cons.mpr ⟨hnew, hunbuilt⟩,
        hroom⟩
  | @finish building store request _ _ spec _ _ _ =>
      obtain ⟨hnot, hdistinct⟩ := List.nodup_cons.mp hdistinct
      refine ⟨hdistinct, fun pending hmem => ?_, Nat.le_of_succ_le hbounded⟩
      have hne : request ≠ pending := fun heq => hnot (heq ▸ hmem)
      have hpending := hunbuilt pending (List.mem_cons_of_mem _ hmem)
      simpa [Store.specialization?, optimizing, coercing, hne] using hpending
  | unwind =>
      exact ⟨hdistinct.of_cons, fun pending hmem => hunbuilt pending (List.mem_cons_of_mem _ hmem),
        Nat.le_of_succ_le hbounded⟩

namespace Runs

theorem refl (moment : Moment) : Runs settings below moment moment :=
  Relation.ReflTransGen.refl

theorem trans {last : Moment} (h : Runs settings below moment next)
    (h' : Runs settings below next last) : Runs settings below moment last :=
  Relation.ReflTransGen.trans h h'

theorem step {last : Moment} (h : Runs settings below moment next) (hstep : Step settings next last)
    (hbelow : below <:+ last.building) : Runs settings below moment last :=
  .tail h ⟨hstep, hbelow⟩

-- What keeps to one part of the stack also keeps to less of it.
theorem weaken {lower : List Request} (hlower : lower <:+ below)
    (h : Runs settings below moment next) : Runs settings lower moment next := by
  induction h with
  | refl => exact .refl moment
  | tail _ hstep ih => exact ih.step hstep.1 (hlower.trans hstep.2)

theorem disciplined (h : Runs settings below moment next) (hmoment : moment.Disciplined settings) :
    next.Disciplined settings := by
  induction h with
  | refl => exact hmoment
  | tail _ hstep ih => exact hstep.1.disciplined ih

-- All moments of a run, with what keeps them in order.
theorem exists_path (h : Runs settings below moment next) (hmoment : moment.Disciplined settings)
    (hbelow : below <:+ moment.building) :
    ∃ path : List Moment, (moment :: path).IsChain (Step settings) ∧
      (moment :: path).getLast? = some next ∧
      ∀ reached ∈ moment :: path, reached.Disciplined settings ∧ below <:+ reached.building := by
  induction h using Relation.ReflTransGen.head_induction_on with
  | refl => exact ⟨[], .singleton _, rfl, List.forall_mem_singleton.mpr ⟨hmoment, hbelow⟩⟩
  | head hstep _ ih =>
      obtain ⟨path, hchain, hlast, hall⟩ := ih (hstep.1.disciplined hmoment) hstep.2
      exact ⟨_ :: path, .cons_cons hstep.1 hchain, by rwa [List.getLast?_cons_cons],
        List.forall_mem_cons.mpr ⟨⟨hmoment, hbelow⟩, hall⟩⟩

-- An error that has been raised gets past all that is being built.
theorem unwind {stack : List Request} {error : SpecializeError} {store : Store}
    (hbelow : below <:+ stack) :
    Runs settings below ⟨some error, stack, store⟩ ⟨some error, below, store⟩ := by
  induction stack with
  | nil =>
      cases List.suffix_nil.mp hbelow
      exact .refl _
  | cons request stack ih =>
      rcases List.suffix_cons_iff.mp hbelow with rfl | hbelow
      · exact .refl _
      · exact ((Runs.refl _).step .unwind hbelow).trans (ih hbelow)

end Runs

end Moments

-- How an error stops a run: it is raised while the requests on the stack are being built,
-- and each of them fails because of it, where it was begun with those below it in flight.
structure Stopped (settings : Settings) (below : List Request) (moment : Moment)
    (error : SpecializeError) (later : Store) (stack : List Request) : Prop where
  suffix : below <:+ stack
  raised : ∃ reached, Runs settings below moment ⟨none, stack, reached⟩ ∧
    Step settings ⟨none, stack, reached⟩ ⟨some error, stack, later⟩
  failed : ∀ request waiting, request :: waiting <:+ stack → below <:+ waiting →
    ∃ reached, Runs settings below moment ⟨none, waiting, reached⟩ ∧
      outcome (specializeWithin settings (settings.limits.maxDepth - waiting.length) waiting
        request) reached = (.error error, later)

namespace Stopped

variable {settings : Settings} {below stack : List Request} {moment next : Moment}
  {error : SpecializeError} {store later : Store}

theorem raise (hruns : Runs settings below moment ⟨none, below, store⟩)
    (hstep : Step settings ⟨none, below, store⟩ ⟨some error, below, later⟩) :
    Stopped settings below moment error later below where
  suffix := List.suffix_rfl
  raised := ⟨store, hruns, hstep⟩
  failed request waiting h h' := by
    have hlength := h.length_le
    have hlength' := h'.length_le
    rw [List.length_cons] at hlength
    omega

theorem of_runs (hruns : Runs settings below moment next)
    (h : Stopped settings below next error later stack) :
    Stopped settings below moment error later stack where
  suffix := h.suffix
  raised := by
    obtain ⟨reached, hreached, hstep⟩ := h.raised
    exact ⟨reached, hruns.trans hreached, hstep⟩
  failed request waiting hstack hbelow := by
    obtain ⟨reached, hreached, hfailed⟩ := h.failed request waiting hstack hbelow
    exact ⟨reached, hruns.trans hreached, hfailed⟩

-- What stops a build also stops the run that it is part of.
theorem begun {request : Request}
    (hfailed : outcome (specializeWithin settings (settings.limits.maxDepth - below.length) below
      request) store = (.error error, later))
    (hbegun : Runs settings below ⟨none, below, store⟩ moment)
    (h : Stopped settings (request :: below) moment error later stack) :
    Stopped settings below ⟨none, below, store⟩ error later stack where
  suffix := (List.suffix_cons _ _).trans h.suffix
  raised := by
    obtain ⟨reached, hreached, hstep⟩ := h.raised
    exact ⟨reached, hbegun.trans (hreached.weaken (List.suffix_cons _ _)), hstep⟩
  failed inner waiting hstack hbelow := by
    -- It is further up the stack, or what has just been begun.
    rcases List.suffix_or_suffix_of_suffix hstack h.suffix with hle | hle
    · have hlength := hle.length_le
      have hlength' := hbelow.length_le
      rw [List.length_cons, List.length_cons] at hlength
      cases hbelow.eq_of_length (by omega)
      cases hle.eq_of_length (by rw [List.length_cons, List.length_cons])
      exact ⟨store, .refl _, hfailed⟩
    · rcases List.suffix_cons_iff.mp hle with heq | hle
      · cases heq
        exact ⟨store, .refl _, hfailed⟩
      · obtain ⟨reached, hreached, hinner⟩ := h.failed inner waiting hstack hle
        exact ⟨reached, hbegun.trans (hreached.weaken (List.suffix_cons _ _)), hinner⟩

theorem runs (h : Stopped settings below moment error later stack) :
    Runs settings below moment ⟨some error, below, later⟩ := by
  obtain ⟨reached, hreached, hstep⟩ := h.raised
  exact (hreached.step hstep h.suffix).trans (.unwind h.suffix)

end Stopped

end RankPoly
