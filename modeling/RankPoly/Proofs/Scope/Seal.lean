import RankPoly.Proofs.Session.Refused

namespace RankPoly

namespace Annotate

-- The same surroundings, but for a call that fails, which says nothing of why it does.
def Context.seal (ctx : Context) : Context where
  loopLimit := ctx.loopLimit
  invoke callee args := tryCatch (ctx.invoke callee args) fun _ => throw (.unresolvable callee)

-- No call fails because it does not find a name.
def Context.Sealed (ctx : Context) : Prop :=
  ∀ callee args store name later,
    Session.outcome (ctx.invoke callee args) store ≠ (.error (.unboundName name), later)

variable {ctx : Context} {store later : Store}

theorem outcome_seal (ctx : Context) (callee : Ty) (args : List Ty) (store : Store) :
    Session.outcome (ctx.seal.invoke callee args) store =
      match Session.outcome (ctx.invoke callee args) store with
      | (.ok ty, later) => (.ok ty, later)
      | (.error _, later) => (.error (.unresolvable callee), later) := by
  unfold Session.outcome Context.seal
  rw [ExceptT.run_tryCatch, StateT.run_bind, Id.run_bind]
  rcases ((ctx.invoke callee args).run.run store).run with ⟨error | ty, later⟩ <;> rfl

theorem Context.sealed_seal (ctx : Context) : ctx.seal.Sealed := by
  intro callee args store name later h
  rw [outcome_seal] at h
  split at h <;> cases h

-- Runs of the same work, of which the second one makes sealed calls.
def sealing : Comparison :=
  { Correspondence.equal with
    agree := Eq
    grows := fun _ _ => True
    within := fun _ => True
    held := fun _ _ _ => True
    leftFree := fun _ => False
    rightFree := fun _ => False
    errors := fun error error' => error' = error ∨ ∃ callee, error' = .unresolvable callee }

theorem sealing_answers
    (hfresh : ∀ callee args store,
      store.fresh.next ≤ (Session.outcome (ctx.invoke callee args) store).2.fresh.next)
    (callee : Ty) (args : List Ty) (store : Store) :
    sealing.Answers store store (Session.outcome (ctx.invoke callee args) store)
      (Session.outcome (ctx.seal.invoke callee args) store) := by
  have hlater := hfresh callee args store
  rw [outcome_seal]
  generalize Session.outcome (ctx.invoke callee args) store = o at hlater
  rcases o with ⟨error | ty, later⟩
  · exact Or.inr (Or.inr ⟨rfl, Or.inr ⟨callee, rfl⟩⟩)
  · exact ⟨rfl, rfl, hlater, hlater⟩

theorem sealing_respects
    (hfresh : ∀ callee args store,
      store.fresh.next ≤ (Session.outcome (ctx.invoke callee args) store).2.fresh.next) :
    sealing.Respects ctx ctx.seal where
  grows_refl _ := trivial
  grows_trans _ _ := trivial
  within_of_grows _ _ := trivial
  grows_fresh _ _ := trivial
  grows_invoke _ _ _ := trivial
  grows_lifted _ _ _ := trivial
  agree_fresh := by
    rintro store _ name name' rfl
    rfl
  asked_var _ := trivial
  held_refresh _ _ := trivial
  held_grows _ _ := trivial
  errors_of_alike h := Or.inl (SpecializeError.Alike.eq h).symm
  registered := by
    rintro store _ func rfl -
    exact Or.inl rfl
  invoke := by
    rintro store _ callee args rfl -
    exact sealing_answers hfresh callee args store
  lifted := by
    rintro store _ op args rfl -
    rw [Comparison.outcome_lifted, Comparison.outcome_lifted]
    exact (sealing_answers hfresh _ args _).of_withWrapper
  limit_lt h := (Nat.lt_irrefl _ h).elim
  limit_gt h := (Nat.lt_irrefl _ h).elim

end Annotate

open Annotate

-- One of the calls fails that are made as a function is typed.
def Func.CallFails (func : Func) (ctx : Context) (args : List Ty) (store : Store) : Prop :=
  ∃ callee later,
    Session.outcome (func.annotate ctx.seal args) store = (.error (.unresolvable callee), later)

-- A function is typed just the same with sealed calls, unless one of its calls fails.
theorem Func.annotate_seal {ctx : Context}
    (hfresh : ∀ callee args store,
      store.fresh.next ≤ (Session.outcome (ctx.invoke callee args) store).2.fresh.next)
    (func : Func) (args : List Ty) (store : Store) :
    (Session.outcome (func.annotate ctx args) store).Leaves
      (fun _ _ => ∃ spec later,
        Session.outcome (func.annotate ctx.seal args) store = (.ok spec, later))
      (fun error later => func.CallFails ctx args store ∨
        Session.outcome (func.annotate ctx.seal args) store = (.error error, later)) := by
  have hmatched := (sealing_respects hfresh).annotate (Func.Alike.refl (fun _ => rfl) func)
    trivial args store store rfl trivial
  unfold Func.CallFails
  generalize Session.outcome (func.annotate ctx args) store = o at hmatched
  generalize Session.outcome (func.annotate ctx.seal args) store = o' at hmatched
  rcases o with ⟨error | spec, later⟩ <;> rcases o' with ⟨error' | spec', later'⟩
  · rcases hmatched with hfree | hfree | ⟨rfl, rfl | ⟨callee, rfl⟩⟩
    · exact hfree.elim
    · exact hfree.elim
    · exact Or.inr rfl
    · exact Or.inl ⟨callee, _, rfl⟩
  · exact hmatched.elim
  · exact hmatched.elim
  · exact ⟨spec', later', rfl⟩

end RankPoly
