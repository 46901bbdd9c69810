import RankPoly.Demo
import RankPoly.Proofs.Session.Elaborated

namespace RankPoly

open Annotate (Passes block loopPass stmt)
open Session

-- What a session gives for a function is the function itself, statement by
-- statement, with a local in place of each variable. A variable keeps its local
-- from one statement to the next, and in all passes over a loop, of which the
-- last one is kept.
theorem specialize_preserves {limits : Limits} {defs : List Func} {store later : Store}
    (hstore : Reachable (.ofLimits limits) defs store) {name : String} {args : List Ty}
    {spec : Specialization}
    (h : outcome (specialize (.ofLimits limits) name args) store = (.ok spec, later)) :
    (∃ func names, store.funcs.find? name = some func ∧
      func.Elaborates (fun _ _ => True) names spec) ∧
    ∀ {depth : Nat} {waiting : List Request} {s : Stmt Expr} {locals locals' : Locals}
      {before after : Store} {t : TypedStmt}, Sound defs before →
      Annotate.Yields (stmt (contextOf limits depth waiting) s) locals before t locals' after →
      locals.naming ≤ locals'.naming ∧
      ∀ {cond : Expr} {body : List (Stmt Expr)} {merges : List (Merge Expr)},
        s = .loop cond body merges →
        ∃ passes, Passes (loopPass (contextOf limits depth waiting) cond
            (block (contextOf limits depth waiting) body) merges) locals before passes locals' after ∧
          passes.getLast? = some t ∧
          ∀ pass ∈ passes, s.Elaborates (fun _ _ => True) locals'.naming pass := by
  refine ⟨?_, ?_⟩
  · obtain ⟨func, names, hfunc, hbody⟩ := hstore.elaborated h
    exact ⟨func, names, hfunc, hbody.imp fun _ _ _ => trivial⟩
  · intro depth waiting s locals locals' before after t hbefore hstmt
    have hctx := answering_sound limits defs depth waiting
    refine ⟨(Annotate.stmt_elaborates hctx s hbefore hstmt).1.naming, ?_⟩
    rintro cond body merges rfl
    unfold stmt at hstmt
    obtain ⟨passes, hpasses, hlast⟩ := Annotate.settle_passes _ hstmt
    obtain ⟨-, hbody⟩ :=
      Annotate.passes_elaborate hctx (Annotate.block_elaborates hctx body) hpasses hbefore
    refine ⟨passes, hpasses, hlast, fun pass hpass => ?_⟩
    exact (hbody pass hpass).imp le_rfl fun _ _ he => he.imp (fun _ _ _ => trivial) le_rfl _ _

-- The loop is gone over twice: its second merge takes an integer first, and a
-- float from the end of the body.
theorem specialize_halve_preserves :
    let store := Operation.after (.ofLimits {}) {} (.register Demo.halve)
    ∃ spec later func names,
      outcome (specialize (.ofLimits {}) "halve" [.scalar .i64]) store = (.ok spec, later) ∧
      store.funcs.find? "halve" = some func ∧ func.Elaborates (fun _ _ => True) names spec := by
  intro store
  have hstore : Reachable (.ofLimits {}) [Demo.halve] store :=
    .step (.register Demo.halve) .start
  obtain ⟨spec, later, h⟩ := Outcome.exists_ok
    (o := outcome (specialize (.ofLimits {}) "halve" [.scalar .i64]) store) (by decide +kernel)
  obtain ⟨⟨func, names, hfunc, hbody⟩, -⟩ := specialize_preserves hstore h
  exact ⟨spec, later, func, names, h, hfunc, hbody⟩

end RankPoly
