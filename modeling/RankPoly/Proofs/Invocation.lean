import RankPoly.Proofs.Memo
import RankPoly.Proofs.Session.Recall

namespace RankPoly

open Session

namespace Session

-- What a call has returned so far, joined with what one more function returns.
def joinReturn (settings : Settings) (args : List Ty) (joined : Ty) (member : Closure) :
    Session Ty := do
  let ty ← returnType settings member.func (member.captured ++ args)
  match joined.combine ty with
  | .ok joined => return joined
  | .error error => throw (.ofTy error)

variable {settings : Settings} {store : Store} {args : List Ty}

theorem outcome_returnType_of_contains {name : String} (h : store.funcs.contains name = true) :
    outcome (returnType settings name args) store =
      (outcome (specializeWithin settings settings.limits.maxDepth [] ⟨name, args⟩) store).andThen
        fun spec later => (.ok spec.returnType, later) := by
  rw [outcome_returnType, outcome_specialize, if_pos h]

-- Joining what members give when nothing waits for them is asking for their return types
-- one after another, as all of them stay registered on the way.
theorem outcome_joinResults_foldlM : ∀ (members : List Closure) (joined : Ty) {store : Store},
    (∀ member ∈ members, store.funcs.contains member.func = true) →
      outcome (joinResults (specializeWithin settings settings.limits.maxDepth []) args members
        joined) store = outcome (members.foldlM (joinReturn settings args) joined) store
  | [], _, _, _ => rfl
  | member :: rest, joined, store, hmembers => by
      have hgrows := grows_specializeWithin settings settings.limits.maxDepth []
        ⟨member.func, member.captured ++ args⟩ store
      rw [outcome_joinResults_cons, List.foldlM_cons, outcome_bind, joinReturn, outcome_bind,
        outcome_returnType_of_contains (hmembers member List.mem_cons_self)]
      rcases hserve : outcome (specializeWithin settings settings.limits.maxDepth []
        ⟨member.func, member.captured ++ args⟩) store with ⟨error | spec, later⟩ <;>
        rw [hserve] at hgrows
      · rfl
      · simp only [Outcome.andThen_ok]
        cases joined.combine spec.returnType with
        | error error => rfl
        | ok joined =>
            exact outcome_joinResults_foldlM rest joined fun other hother =>
              hgrows.contains (hmembers other (List.mem_cons_of_mem _ hother))

-- A call gives what its members are joined to, whether it is remembered or not.
theorem outcome_invocationType_fst (hstore : store.Coherent) {callee : Ty} {members : List Closure}
    (hmembers : callee.members? = some members) :
    (outcome (invocationType settings callee args) store).1 =
      (outcome (joinResults (specializeWithin settings settings.limits.maxDepth []) args members
        .unknown) store).1 := by
  unfold invocationType
  rw [outcome_invokeWith]
  cases hcall : store.callType? ⟨callee, args⟩ with
  | some ty =>
      obtain ⟨known, hknown, hjoin⟩ := Option.bind_eq_some_iff.mp (hstore callee args ty hcall)
      cases hmembers.symm.trans hknown
      obtain ⟨counters, houtcome⟩ :=
        joinResults_of_known settings settings.limits.maxDepth [] args hjoin
      rw [houtcome]
  | none =>
      simp only [hmembers]
      rcases outcome (joinResults (specializeWithin settings settings.limits.maxDepth []) args
        members .unknown) store with ⟨error | ty, later⟩ <;> rfl

end Session

-- Calling is specializing. At any time, whatever has been remembered by then, a call of a
-- closure gives the type, or the error, that its function gives for the captured
-- arguments with the others behind them, wherever they are divided. A call of a set gives
-- what its members return, asked for in their order and joined from left to right, or the
-- first error on the way.
theorem invocation_agrees {settings : Settings} {defs : List Func} {store : Store}
    (hstore : Reachable settings defs store) :
    (∀ func args, store.funcs.contains func = true → ∀ captured rest, captured ++ rest = args →
      (outcome (invocationType settings (.closure ⟨func, captured⟩) rest) store).1 =
        (outcome (returnType settings func args) store).1) ∧
      ∀ members args, (∀ member ∈ members, store.funcs.contains member.func = true) →
        (outcome (invocationType settings (.closureSet members) args) store).1 =
          (outcome (members.foldlM (joinReturn settings args) .unknown) store).1 := by
  have hcoherent : store.Coherent := (lasting_coherent settings).of_reachable hstore
  constructor
  · rintro func _ hfunc captured rest rfl
    rw [outcome_invocationType_fst hcoherent rfl, outcome_returnType_of_contains hfunc,
      outcome_joinResults_cons]
    rcases outcome (specializeWithin settings settings.limits.maxDepth [] ⟨func, captured ++ rest⟩)
      store with ⟨error | spec, later⟩
    · rfl
    · simp only [Outcome.andThen_ok, Ty.combine_unknown_left]
      rfl
  · intro members args hmembers
    rw [outcome_invocationType_fst hcoherent rfl, outcome_joinResults_foldlM members _ hmembers]

-- The first member is specialized by the time the second one fails, so that the call is
-- not remembered, and either way of asking finds what has been kept.
theorem invocation_of_refused_agrees :
    let negate := Demo.define "negate" ["x"] [.ret (.prim .neg [.var "x"])]
    let broken := Demo.define "broken" ["x"] [.ret (.var "z")]
    let members : List Closure := [⟨"negate", []⟩, ⟨"broken", []⟩]
    let args : List Ty := [.scalar .i64]
    let ops : List Operation :=
      [.register negate, .register broken, .invocationType (.closureSet members) args]
    let store := ops.foldl (Operation.after {}) {}
    (outcome (returnType {} "negate" args) store).1.toOption = some (.scalar .i64) ∧
      (outcome (invocationType {} (.closure ⟨"negate", args⟩) []) store).1 =
        (outcome (returnType {} "negate" args) store).1 ∧
      (outcome (invocationType {} (.closureSet members) args) store).1 =
        (outcome (members.foldlM (joinReturn {} args) .unknown) store).1 := by
  intro negate broken members args ops store
  obtain ⟨defs, hstore⟩ := Reachable.run ops (.start : Reachable {} [] {})
  obtain ⟨hclosure, hset⟩ := invocation_agrees hstore
  exact ⟨by decide +kernel, hclosure "negate" args (by decide +kernel) args [] rfl,
    hset members args (by decide +kernel)⟩

end RankPoly
