import RankPoly.Demo
import RankPoly.Proofs.Session.Recall
import RankPoly.Proofs.Session.Runs

namespace RankPoly

open Session

-- How the counters account for what was done between two moments: what was begun has been
-- kept or is still being built, and both passes have gone over all that was kept.
structure Moment.Balanced (first moment : Moment) : Prop where
  grown : first.store.built.length ≤ moment.store.built.length
  inferences :
    moment.store.counters.inferences + first.store.built.length + first.building.length =
      first.store.counters.inferences + moment.store.built.length + moment.building.length
  coercionRuns : moment.store.counters.coercionRuns + first.store.built.length =
    first.store.counters.coercionRuns + moment.store.built.length
  optimizerRuns : moment.store.counters.optimizerRuns + first.store.built.length =
    first.store.counters.optimizerRuns + moment.store.built.length

theorem Moment.Balanced.refl (moment : Moment) : moment.Balanced moment :=
  ⟨Nat.le_refl _, rfl, rfl, rfl⟩

section Counters

variable {settings : Settings} {below : List Request} {first moment next : Moment}

-- An error does not go away.
theorem Step.running (h : Step settings moment next) (hnext : next.error = none) :
    moment.error = none := by
  cases h with
  | unwind => cases hnext
  | _ => rfl

-- What is begun counts as an inference, and what is kept has been through both passes.
theorem Step.balanced (h : Step settings moment next) (hnext : next.error = none)
    (hmoment : first.Balanced moment) : first.Balanced next := by
  obtain ⟨hgrown, hinferences, hcoercions, hoptimizations⟩ := hmoment
  cases h with
  | draw | hitCache | hitMemo | remember =>
      exact ⟨hgrown, hinferences, hcoercions, hoptimizations⟩
  | addWrapper op =>
      constructor <;> simpa only [withWrapper_built, withWrapper_counters]
  | begin =>
      refine ⟨hgrown, ?_, hcoercions, hoptimizations⟩
      simp only [inferring, List.length_cons] at hinferences ⊢
      omega
  | finish =>
      simp only [List.length_cons] at hgrown hinferences hcoercions hoptimizations
      constructor <;> simp only [optimizing, coercing, List.length_cons] <;> omega
  | raise | refuseCoercion | refuseOptimizer | unwind => cases hnext

theorem Runs.balanced (h : Runs settings below moment next) (hnext : next.error = none) :
    moment.Balanced next := by
  induction h with
  | refl => exact .refl moment
  | tail _ hstep ih => exact hstep.1.balanced hnext (ih (hstep.1.running hnext))

-- When an error is raised, nothing is begun and nothing is kept.
theorem Step.raised {stack : List Request} {store later : Store} {error : SpecializeError}
    (h : Step settings ⟨none, stack, store⟩ ⟨some error, stack, later⟩) :
    later.built = store.built ∧ later.counters.inferences = store.counters.inferences := by
  cases h with
  | raise | refuseCoercion | refuseOptimizer => exact ⟨rfl, rfl⟩

-- What was begun until an error stopped a run has been kept, or was being built then.
theorem Stopped.inferences {stack : List Request} {later : Store} {error : SpecializeError}
    (h : Stopped settings below moment error later stack) :
    moment.store.built.length ≤ later.built.length ∧
      later.counters.inferences + moment.store.built.length + moment.building.length =
        moment.store.counters.inferences + later.built.length + stack.length := by
  obtain ⟨reached, hruns, hstep⟩ := h.raised
  obtain ⟨hbuilt, hinferences⟩ := hstep.raised
  have hbalanced := hruns.balanced rfl
  rw [hbuilt, hinferences]
  exact ⟨hbalanced.grown, hbalanced.inferences⟩

theorem Stopped.disciplined {stack : List Request} {later : Store} {error : SpecializeError}
    (h : Stopped settings below moment error later stack) (hmoment : moment.Disciplined settings) :
    Moment.Disciplined settings ⟨some error, stack, later⟩ := by
  obtain ⟨reached, hruns, hstep⟩ := h.raised
  exact hstep.disciplined (hruns.disciplined hmoment)

end Counters

namespace Operation

-- The store once what was asked for is found: specializations are in the cache, and calls
-- are in the memo.
def recalled (store : Store) : Operation → Store
  | .specialize .. | .specializeFunc .. | .returnType .. => hitCache store
  | .invocationType .. => hitMemo store
  | .register _ | .primWrapper _ => store

-- How the counters account for an operation. If it succeeds, all that was begun is kept.
-- If it fails, the rest is what was being built when the error was raised. What has been
-- done is not done again.
structure Accounts (settings : Settings) (store : Store) (op : Operation) : Prop where
  succeeded : op.error? settings store = none → ∃ count,
    (op.after settings store).built.length = store.built.length + count ∧
    (op.after settings store).counters.inferences = store.counters.inferences + count ∧
    (op.after settings store).counters.coercionRuns = store.counters.coercionRuns + count ∧
    (op.after settings store).counters.optimizerRuns = store.counters.optimizerRuns + count
  failed : ∀ {error}, op.error? settings store = some error → ∃ stack count,
    Stopped settings [] ⟨none, [], op.entered store⟩ error (op.after settings store) stack ∧
    Moment.Disciplined settings ⟨some error, stack, op.after settings store⟩ ∧
    (op.after settings store).built.length = store.built.length + count ∧
    (op.after settings store).counters.inferences =
      store.counters.inferences + count + stack.length
  repeated : op.error? settings store = none →
    op.error? settings (op.after settings store) = none ∧
      op.after settings (op.after settings store) = op.recalled (op.after settings store)

-- Registering a definition is not counted.
theorem entered_counts (store : Store) (op : Operation) :
    (op.entered store).built = store.built ∧ (op.entered store).counters = store.counters := by
  rcases op.entered_cases store with heq | ⟨func, -, -, heq⟩ <;> rw [heq]
  · exact ⟨rfl, rfl⟩
  · exact ⟨rfl, rfl⟩

-- What has succeeded succeeds again, and finds what it has left.
theorem recalled_of_ok {settings : Settings} {store : Store} {op : Operation}
    (h : op.error? settings store = none) :
    op.error? settings (op.after settings store) = none ∧
      op.after settings (op.after settings store) = op.recalled (op.after settings store) := by
  cases op with
  | register func =>
      simp only [error?, after, recalled] at h ⊢
      rcases hknown : outcome (Session.register func) store with ⟨error | known, later⟩ <;>
        rw [hknown] at h
      · cases h
      · rw [register_again hknown (.refl later)]
        exact ⟨rfl, rfl⟩
  | specialize name args =>
      simp only [error?, after, recalled] at h ⊢
      rcases hspec : outcome (Session.specialize settings name args) store
        with ⟨error | spec, later⟩ <;> rw [hspec] at h
      · cases h
      · rw [specialize_again hspec]
        exact ⟨rfl, rfl⟩
  | specializeFunc func args =>
      simp only [error?, after, recalled, outcome_specializeFunc] at h ⊢
      rcases hknown : outcome (Session.register func) store with ⟨error | known, between⟩ <;>
        rw [hknown] at h
      · cases h
      · simp only [Outcome.andThen_ok] at h ⊢
        have hgrows := (specialize_leads (kept_trivial settings) known.name args between).1
        rcases hspec : outcome (Session.specialize settings known.name args) between
          with ⟨error | spec, later⟩ <;> rw [hspec] at h hgrows
        · cases h
        · rw [register_again hknown hgrows, Outcome.andThen_ok, specialize_again hspec]
          exact ⟨rfl, rfl⟩
  | returnType name args =>
      simp only [error?, after, recalled, outcome_returnType] at h ⊢
      rcases hspec : outcome (Session.specialize settings name args) store
        with ⟨error | spec, later⟩ <;> rw [hspec] at h
      · cases h
      · rw [Outcome.andThen_ok, specialize_again hspec]
        exact ⟨rfl, rfl⟩
  | invocationType callee args =>
      simp only [error?, after, recalled, Session.invocationType] at h ⊢
      rcases hty : outcome (invokeWith (specializeWithin settings settings.limits.maxDepth [])
        callee args) store with ⟨error | ty, later⟩ <;> rw [hty] at h
      · cases h
      · rw [(invokeWith_again hty).2]
        exact ⟨rfl, rfl⟩
  | primWrapper op =>
      simp only [error?, after, recalled, outcome_primWrapper]
      exact ⟨rfl, withWrapper_of_contains (contains_withWrapper op store)⟩

end Operation

-- Whatever is asked for, from whatever store and with whatever passes, the counters account
-- for all that was built.
theorem operation_accounts (settings : Settings) (store : Store) (op : Operation) :
    op.Accounts settings store := by
  obtain ⟨hbuilt, hcounters⟩ := op.entered_counts store
  have hends := op.ends settings store
  refine ⟨fun herror => ?_, fun {error} herror => ?_, Operation.recalled_of_ok⟩
  · rw [herror] at hends
    have hbalanced := Runs.balanced hends rfl
    obtain ⟨count, hcount⟩ := Nat.exists_eq_add_of_le hbalanced.grown
    obtain ⟨-, hinferences, hcoercions, hoptimizations⟩ := hbalanced
    simp only [hbuilt, hcounters, List.length_nil] at hinferences hcoercions hoptimizations hcount
    exact ⟨count, hcount, by omega, by omega, by omega⟩
  · rw [herror] at hends
    obtain ⟨stack, hstack⟩ := hends
    obtain ⟨hgrown, hinferences⟩ := hstack.inferences
    obtain ⟨count, hcount⟩ := Nat.exists_eq_add_of_le hgrown
    simp only [hbuilt, hcounters, List.length_nil] at hinferences hcount
    exact ⟨stack, count, hstack, hstack.disciplined (.start settings _), hcount, by omega⟩

end RankPoly
