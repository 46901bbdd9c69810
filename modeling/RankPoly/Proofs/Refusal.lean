import RankPoly.Demo
import RankPoly.Proofs.Session.Refused

namespace RankPoly

open Session

namespace FailsAgain

variable {limits : Limits}

-- Work that has failed does so again on what it has left behind.
theorem again {α : Type} {work : Session α} (h : FailsAgain work) {store : Store}
    (hstore : store.Coherent) {error : SpecializeError}
    (herror : (outcome work store).error? = some error) :
    (outcome work (outcome work store).2).error? = some error ∧
      (outcome work (outcome work store).2).2.SameContents (outcome work store).2 := by
  obtain ⟨later, hlater, hsame⟩ := h hstore (Outcome.eq_of_error? herror) (.refl _)
  rw [hlater]
  exact ⟨rfl, hsame⟩

theorem register (func : Func) : FailsAgain (Session.register func) := by
  intro store last later error _ hfailed hlater
  rw [outcome_register] at hfailed
  split at hfailed
  · rename_i known hfound
    split at hfailed
    · cases hfailed
    · rename_i hdifferent
      cases hfailed
      have hfound : NameMap.find? func.name later.funcs = some known := hlater.funcs ▸ hfound
      simp only [outcome_register, hfound, if_neg hdifferent]
      exact ⟨later, rfl, hlater⟩
  · cases hfailed

theorem specialize (name : String) (args : List Ty) :
    FailsAgain (Session.specialize (.ofLimits limits) name args) := by
  intro store last later error hstore hfailed hlater
  rw [outcome_specialize] at hfailed ⊢
  split at hfailed
  · rename_i hname
    have hgrows := grows_specializeWithin (.ofLimits limits) limits.maxDepth [] ⟨name, args⟩ store
    obtain ⟨later', hagain, hsame⟩ :=
      specializeWithin_failsAgain limits limits.maxDepth [] ⟨name, args⟩ hstore hfailed hlater
    change store.Grows (outcome (specializeWithin (.ofLimits limits)
      (Settings.ofLimits limits).limits.maxDepth [] ⟨name, args⟩) store).2 at hgrows
    rw [hfailed] at hgrows
    rw [hlater.funcs, if_pos (hgrows.contains hname)]
    exact ⟨later', hagain, hsame⟩
  · rename_i hname
    cases hfailed
    rw [hlater.funcs, if_neg hname]
    exact ⟨later, rfl, hlater⟩

-- The definition that came with the request has been accepted if the request is what failed.
theorem specializeFunc (func : Func) (args : List Ty) :
    FailsAgain (Session.specializeFunc (.ofLimits limits) func args) := by
  intro store last later error hstore hfailed hlater
  rw [outcome_specializeFunc] at hfailed ⊢
  rcases hregister : outcome (Session.register func) store with ⟨error' | known, between⟩ <;>
    rw [hregister] at hfailed
  · cases hfailed
    obtain ⟨later', hagain, hsame⟩ := register func hstore hregister hlater
    exact ⟨later', by rw [hagain, Outcome.andThen_error], hsame⟩
  · rw [Outcome.andThen_ok] at hfailed
    obtain ⟨hfound, hsame⟩ := register_known hregister
    have hgrows := (specialize_leads (kept_trivial (.ofLimits limits)) known.name args between).1
    rw [hfailed] at hgrows
    have hbetween : between.Coherent := by
      rcases register_ok hregister with rfl | ⟨-, rfl⟩
      · exact hstore
      · exact hstore
    have hfound : later.funcs.find? func.name = some known := hlater.funcs ▸ hgrows.funcs hfound
    rw [outcome_register_known hfound hsame, Outcome.andThen_ok]
    exact specialize known.name args hbetween hfailed hlater

theorem returnType (name : String) (args : List Ty) :
    FailsAgain (Session.returnType (.ofLimits limits) name args) := by
  intro store last later error hstore hfailed hlater
  rw [outcome_returnType] at hfailed ⊢
  rcases hspec : outcome (Session.specialize (.ofLimits limits) name args) store with
    ⟨error' | spec, between⟩ <;> rw [hspec] at hfailed <;> cases hfailed
  obtain ⟨later', hagain, hsame⟩ := specialize name args hstore hspec hlater
  exact ⟨later', by rw [hagain, Outcome.andThen_error], hsame⟩

end FailsAgain

-- Whatever has failed in a session without passes that change something fails again in the same
-- way, for whichever reason it has failed, and nothing is added by it.
theorem operation_fails_again {limits : Limits} {defs : List Func} {store : Store}
    (hstore : Reachable (.ofLimits limits) defs store) {op : Operation} {error : SpecializeError}
    (herror : op.error? (.ofLimits limits) store = some error) :
    op.error? (.ofLimits limits) (op.after (.ofLimits limits) store) = some error ∧
      (op.after (.ofLimits limits) (op.after (.ofLimits limits) store)).SameContents
        (op.after (.ofLimits limits) store) := by
  have hcoherent := ((lasting_sound limits).of_reachable hstore).coherent
  cases op with
  | register func => exact (FailsAgain.register func).again hcoherent herror
  | specialize name args => exact (FailsAgain.specialize name args).again hcoherent herror
  | specializeFunc func args => exact (FailsAgain.specializeFunc func args).again hcoherent herror
  | returnType name args => exact (FailsAgain.returnType name args).again hcoherent herror
  | invocationType callee args =>
      exact (FailsAgain.invokeWith (specializeWithin_failsAgain limits limits.maxDepth []) callee
        args).again hcoherent herror
  | primWrapper op =>
      simp only [Operation.error?, outcome_primWrapper] at herror
      cases herror

-- A function that calls itself on what another one gives for its argument. What is left of it
-- is that other one, with the wrapper that it needs.
theorem spin_fails_again :
    let twice := Demo.define "twice" ["x"] [.ret (.prim .add [.var "x", .var "x"])]
    let spin := Demo.define "spin" ["x"]
      [.ret (.invoke (Demo.named "spin") [.invoke (Demo.named "twice") [.var "x"]])]
    let store := [Operation.register twice, .register spin].foldl (Operation.after {}) {}
    let op := Operation.specialize "spin" [.array .i64 1]
    let later := op.after {} store
    (later.built.map fun entry => entry.1.func) = ["twice", "prim_add"] ∧ later.calls.length = 2 ∧
      ∃ error, error.message = "recursive specialization of spin for (array<i64, 1>)" ∧
        op.error? {} store = some error ∧ op.error? {} later = some error ∧
        (op.after {} later).SameContents later := by
  intro twice spin store op later
  obtain ⟨defs, hstore⟩ := Reachable.run [.register twice, .register spin]
    (.start : Reachable (.ofLimits {}) [] {})
  have hfailed : (op.error? (.ofLimits {}) store).map SpecializeError.message =
      some "recursive specialization of spin for (array<i64, 1>)" := by
    decide +kernel
  obtain ⟨error, herror, hmessage⟩ := Option.map_eq_some_iff.mp hfailed
  exact ⟨by decide +kernel, by decide +kernel, error, hmessage, herror,
    operation_fails_again hstore herror⟩

end RankPoly
