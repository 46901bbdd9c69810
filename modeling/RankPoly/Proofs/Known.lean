import RankPoly.Demo
import RankPoly.Proofs.Session.Flows

namespace RankPoly

open Session
open Ty (AllParts)

namespace Ty

-- A type of which something is known. A set of closures has members, so there is
-- one that can be called.
def Known (ty : Ty) : Prop :=
  ty ≠ .unknown ∧ ty ≠ .closureSet []

instance (ty : Ty) : Decidable ty.Known :=
  inferInstanceAs (Decidable (ty ≠ .unknown ∧ ty ≠ .closureSet []))

theorem stable_known : Stable Known where
  scalar _ := ⟨nofun, nofun⟩
  array _ _ _ := ⟨nofun, nofun⟩
  tuple _ := ⟨nofun, nofun⟩
  struct _ := ⟨nofun, nofun⟩
  closure _ := ⟨nofun, nofun⟩
  slice _ _ _ := ⟨nofun, nofun⟩
  none := ⟨nofun, nofun⟩
  empty h := (h.2 rfl).elim
  singleton _ := ⟨nofun, nofun⟩
  insert _ _ := ⟨nofun, fun heq => ClosureSet.insert_ne_nil (Ty.closureSet.inj heq)⟩

-- Nothing is known of a value, or something is known of all that it is made of.
def Guarded (ty : Ty) : Prop :=
  ty = .unknown ∨ AllParts Known ty

instance (ty : Ty) : Decidable ty.Guarded :=
  inferInstanceAs (Decidable (ty = .unknown ∨ AllParts Known ty))

end Ty

-- A variable of which nothing is known cannot be read.
theorem regime_known : Regime Ty.Known Ty.Guarded where
  stable := Ty.stable_known
  known h hne := h.resolve_left hne
  of_parts := Or.inr

-- No expression that a session gives has an unknown type, at any depth, and
-- neither has the result, if each parameter either is of unknown type itself or
-- has no unknown types in it.
theorem specialize_known {limits : Limits} {defs : List Func} {store later : Store}
    (hstore : Reachable (.ofLimits limits) defs store) {name : String} {args : List Ty}
    {spec : Specialization}
    (hargs : ∀ func, store.funcs.find? name = some func → func.Admits Ty.Guarded args)
    (h : outcome (specialize (.ofLimits limits) name args) store = (.ok spec, later)) :
    (∀ s ∈ Stmt.withinBlock spec.body, ∀ t ∈ s.exprs, ∀ node : TypedExpr, node.Within t →
      node.ty ≠ .unknown) ∧
    spec.returnType ≠ .unknown := by
  have hflows := hstore.flows regime_known hargs h
  refine ⟨fun s hs t ht node hnode => ?_, hflows.returnType.self.1⟩
  exact ((hflows.body s hs).nodes t ht hnode).self.1

-- The second parameter is of unknown type, but it is not read before it is
-- assigned to.
theorem specialize_fallback_known :
    let fallback := Demo.define "fallback" ["x", "y"]
      [.assign (.var "y") (.var "x"), .ret (.var "y")]
    let store := Operation.after (.ofLimits {}) {} (.register fallback)
    ∃ spec later,
      outcome (specialize (.ofLimits {}) "fallback" [.scalar .i64, .unknown]) store =
        (.ok spec, later) ∧
      (∀ s ∈ Stmt.withinBlock spec.body, ∀ t ∈ s.exprs, ∀ node : TypedExpr, node.Within t →
        node.ty ≠ .unknown) ∧
      spec.returnType ≠ .unknown := by
  intro fallback store
  have hstore : Reachable (.ofLimits {}) [fallback] store := .step (.register fallback) .start
  have hargs : ∀ func, store.funcs.find? "fallback" = some func →
      func.Admits Ty.Guarded [.scalar .i64, .unknown] := by
    rintro _ ⟨⟩ _ ⟨⟩
    decide
  obtain ⟨spec, later, h⟩ := Outcome.exists_ok
    (o := outcome (specialize (.ofLimits {}) "fallback" [.scalar .i64, .unknown]) store)
    (by decide +kernel)
  obtain ⟨hnodes, hreturn⟩ := specialize_known hstore hargs h
  exact ⟨spec, later, h, hnodes, hreturn⟩

-- An unknown type inside of a tuple is not seen where the tuple is read, and is
-- what its slot has.
theorem specialize_head_unknown :
    let head := Demo.define "head" ["x"] [.ret (.index (.var "x") (.const (.int 0)))]
    let store := Operation.after (.ofLimits {}) {} (.register head)
    ∃ spec later value,
      outcome (specialize (.ofLimits {}) "head" [.tuple [.unknown]]) store = (.ok spec, later) ∧
      spec.body = [.ret (.project value 0 .unknown)] ∧ spec.returnType = .unknown :=
  ⟨_, _, _, rfl, rfl, rfl⟩

end RankPoly
