import RankPoly.Demo
import RankPoly.Proofs.Session.Covers

namespace RankPoly

open Session

-- What a session gives for a request is kept in a sound store.
theorem Sound.specialize {limits : Limits} {defs : List Func} {store later : Store}
    (hstore : Sound defs store) {name : String} {args : List Ty} {spec : Specialization}
    (h : outcome (Session.specialize (.ofLimits limits) name args) store = (.ok spec, later)) :
    Sound defs later ∧ (⟨name, args⟩, spec) ∈ later.built := by
  have hlater := specialize_kept (kept_sound limits defs) name args hstore
  rw [h] at hlater
  refine ⟨hlater, mem_of_specialization? ?_⟩
  rw [outcome_specialize] at h
  split at h
  · exact specializeWithin_found h
  · cases h

-- Two sessions with the same definitions that both specialize a function for
-- some arguments get the same, up to the names drawn on the way. What either of
-- them was asked before does not matter, and neither do their limits.
theorem specialize_renamed {limits limits' : Limits} {defs defs' : List Func}
    {store store' later later' : Store} (hstore : Reachable (.ofLimits limits) defs store)
    (hstore' : Reachable (.ofLimits limits') defs' store') (hdefs : SameDefs defs defs')
    {name : String} {args : List Ty} {spec spec' : Specialization}
    (h : outcome (specialize (.ofLimits limits) name args) store = (.ok spec, later))
    (h' : outcome (specialize (.ofLimits limits') name args) store' = (.ok spec', later')) :
    spec.Renamed spec' := by
  obtain ⟨hlater, hmem⟩ := ((lasting_sound limits).of_reachable hstore).specialize h
  obtain ⟨hlater', hmem'⟩ := ((lasting_sound limits').of_reachable hstore').specialize h'
  have hsame : SameFuncs later.funcs later'.funcs :=
    hlater.registry.sameFuncs hlater'.registry hdefs
  exact hlater.grounded.renamed hsame hlater'.grounded hmem hmem'

-- The first session has been asked before, also for what it had to refuse, and
-- answers from its cache. The names it drew are not those of the second one.
theorem specialize_halve_renamed :
    let limits : Limits := { maxDepth := 1 }
    let store := [.register Demo.halve, .specialize "halve" [],
      .returnType "halve" [.scalar .i64]].foldl (Operation.after (.ofLimits {})) {}
    let store' := Operation.after (.ofLimits limits) {} (.register Demo.halve)
    ∃ spec spec' later later',
      outcome (specialize (.ofLimits {}) "halve" [.scalar .i64]) store = (.ok spec, later) ∧
      outcome (specialize (.ofLimits limits) "halve" [.scalar .i64]) store' = (.ok spec', later') ∧
      spec.Renamed spec' := by
  intro limits store store'
  have hstore : Reachable (.ofLimits {}) [Demo.halve] store :=
    .step (.returnType "halve" [.scalar .i64]) (.step (.specialize "halve" [])
      (.step (.register Demo.halve) .start))
  have hstore' : Reachable (.ofLimits limits) [Demo.halve] store' :=
    .step (.register Demo.halve) .start
  have hdefs : SameDefs [Demo.halve] [Demo.halve] := .of_forall (by decide +kernel)
  obtain ⟨spec, later, h⟩ := Outcome.exists_ok
    (o := outcome (specialize (.ofLimits {}) "halve" [.scalar .i64]) store) (by decide +kernel)
  obtain ⟨spec', later', h'⟩ := Outcome.exists_ok
    (o := outcome (specialize (.ofLimits limits) "halve" [.scalar .i64]) store') (by decide +kernel)
  exact ⟨spec, spec', later, later', h, h', specialize_renamed hstore hstore' hdefs h h'⟩

end RankPoly
