import RankPoly.Demo
import RankPoly.Proofs.Renaming.Tandem
import RankPoly.Proofs.Session.Refused

namespace RankPoly

open Session

-- An error that no renamed variable had a part in is the same in both sessions.
theorem SpecializeError.Alike.of_refl {error error' : SpecializeError}
    (h : error.Alike (.renamed (.refl String)) error') (var : String ↪ String) :
    error.Alike (.renamed var) error' := by
  have heq : error = error' := h.eq
  rw [heq]
  exact .refl error'

-- A session that has only been given functions, and one that has been given the same ones,
-- but for the names of variables in one of them.
theorem Store.tandem_start {funcs : NameMap Func} {func : Func} {var : String → String}
    {g : String ↪ String} (hfunc : funcs.find? func.name = some func)
    (hg : ∀ x ∈ func.vars, g x = var x) :
    Store.Tandem (Function.update (fun _ => .refl String) func.name g) { funcs }
      { funcs := funcs.insert func.name (func.renameVars var) } where
  funcs := by
    intro name
    by_cases heq : name = func.name
    · subst heq
      rw [hfunc, NameMap.find?_insert_self, Function.update_self]
      exact .some (Func.alike_renameVars hg)
    · rw [NameMap.find?_insert_of_ne _ _ (Ne.symm heq), Function.update_of_ne heq]
      cases funcs.find? name with
      | none => exact .none
      | some other => exact .some (Func.Alike.refl (fun _ => rfl) other)
  spelled := by
    intro name
    by_cases heq : name = func.name
    · left
      exact NameMap.contains_iff.mpr ⟨func, heq ▸ hfunc⟩
    · right
      exact Function.update_of_ne heq _ _
  built _ := .none
  calls _ := rfl
  fresh := rfl

-- What the variables of a function are called does not matter, as long as different ones
-- are called differently. A new session that is given the function under other names for
-- its variables, and is otherwise given the same functions, specializes it for the same
-- arguments. Then it gives the same in all but the names drawn, which are drawn in the
-- same order for the variables that correspond. If it fails, it fails with the same error,
-- up to the names of variables in it.
theorem specialize_renameVars {funcs : NameMap Func} {func : Func} {var : String → String}
    (limits : Limits) (hfunc : funcs.find? func.name = some func)
    (hvar : Set.InjOn var {x | x ∈ func.vars}) (args : List Ty) :
    let start : Store := { funcs }
    let start' : Store := { funcs := funcs.insert func.name (func.renameVars var) }
    ∃ g : String ↪ String, (∀ x ∈ func.vars, g x = var x) ∧
      ((∃ spec spec' later later',
          outcome (specialize (.ofLimits limits) func.name args) start = (.ok spec, later) ∧
          outcome (specialize (.ofLimits limits) func.name args) start' = (.ok spec', later') ∧
          spec.Respelled g spec') ∨
        ∃ error error' later later',
          outcome (specialize (.ofLimits limits) func.name args) start = (.error error, later) ∧
          outcome (specialize (.ofLimits limits) func.name args) start' =
            (.error error', later') ∧
          error.Alike (.renamed g) error') := by
  intro start start'
  obtain ⟨g, hg⟩ := exists_renaming_all hvar
  refine ⟨g, hg, ?_⟩
  have hends := inTandem_specialize limits func.name args (Store.tandem_start hfunc hg)
  rcases hleft : outcome (specialize (.ofLimits limits) func.name args) start with
    ⟨error | spec, later⟩ <;>
    rcases hright : outcome (specialize (.ofLimits limits) func.name args) start' with
      ⟨error' | spec', later'⟩ <;>
    rw [hleft, hright] at hends
  · obtain ⟨⟨name, herror⟩, -⟩ := hends
    refine Or.inr ⟨error, error', later, later', rfl, rfl, ?_⟩
    by_cases heq : name = func.name
    · rw [heq, Function.update_self] at herror
      exact herror
    · rw [Function.update_of_ne heq] at herror
      exact herror.of_refl g
  · exact hends.elim
  · exact hends.elim
  · obtain ⟨hspec, -⟩ := hends
    rw [Function.update_self] at hspec
    exact Or.inl ⟨spec, spec', later, later', rfl, rfl, hspec⟩

-- New names that look as if they had been drawn, one of them an old name of another
-- variable.
theorem specialize_halve_renameVars :
    let var : String → String := fun name =>
      if name = "x" then "i" else if name = "i" then "x.0" else name ++ ".1"
    let start : Store := { funcs := NameMap.insert "halve" Demo.halve [] }
    let start' : Store :=
      { funcs := start.funcs.insert "halve" (Demo.halve.renameVars var) }
    ∃ (g : String ↪ String) (spec spec' : Specialization) (later later' : Store),
      (∀ x ∈ Demo.halve.vars, g x = var x) ∧
      outcome (specialize (.ofLimits {}) "halve" [.scalar .i64]) start = (.ok spec, later) ∧
      outcome (specialize (.ofLimits {}) "halve" [.scalar .i64]) start' = (.ok spec', later') ∧
      spec.Respelled g spec' := by
  intro var start start'
  have hfunc : start.funcs.find? Demo.halve.name = some Demo.halve := rfl
  have hpairs : ∀ x ∈ Demo.halve.vars, ∀ y ∈ Demo.halve.vars, var x = var y → x = y := by
    decide +kernel
  have hvar : Set.InjOn var {x | x ∈ Demo.halve.vars} := fun x hx y hy => hpairs x hx y hy
  obtain ⟨g, hg, hends⟩ := specialize_renameVars {} hfunc hvar [.scalar .i64]
  obtain ⟨spec, later, hspec⟩ := Outcome.exists_ok
    (o := outcome (specialize (.ofLimits {}) "halve" [.scalar .i64]) start) (by decide +kernel)
  obtain ⟨spec, spec', later, later', h⟩ | ⟨error, _, last, _, hfailed, _⟩ := hends
  · exact ⟨g, spec, spec', later, later', hg, h⟩
  · cases hspec.symm.trans hfailed

end RankPoly
