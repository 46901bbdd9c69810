import RankPoly.Demo
import RankPoly.Proofs.Session.Flows

namespace RankPoly

open Session
open Ty (AllParts Below Proper WidensTo)

-- With nothing but proper types around, all variables may have any of them.
theorem regime_proper : Regime Proper (AllParts Proper) where
  stable := Ty.stable_proper
  known h _ := h
  of_parts h := h

theorem Merge.mem_exprs {merge : Merge TypedExpr} {s : TypedStmt} (h : merge ∈ s.merges) :
    merge.left ∈ s.exprs ∧ merge.right ∈ s.exprs := by
  have hmem : ∀ t ∈ [merge.left, merge.right],
      t ∈ s.merges.flatMap fun merge => [merge.left, merge.right] :=
    fun t ht => List.mem_flatMap.mpr ⟨merge, h, ht⟩
  cases s with
  | assign target value => cases h
  | ret value => cases h
  | branch cond onTrue onFalse merges =>
      exact ⟨List.mem_cons_of_mem _ (hmem _ (by simp)), List.mem_cons_of_mem _ (hmem _ (by simp))⟩
  | loop cond body merges =>
      exact ⟨List.mem_cons_of_mem _ (hmem _ (by simp)), List.mem_cons_of_mem _ (hmem _ (by simp))⟩

section WidensTo

variable {env : NameMap Ty}

theorem NameMap.Bounds.widensTo (henv : ∀ {name ty}, env.find? name = some ty → AllParts Proper ty)
    {name : String} {ty : Ty} (hty : AllParts Proper ty) (h : env.Bounds Below name ty) :
    env.Bounds WidensTo name ty := by
  obtain ⟨bound, hfind, hbelow⟩ := h
  exact ⟨bound, hfind, Ty.widensTo_of_below ty bound hbelow hty (henv hfind)⟩

theorem TypedExpr.Takes.widensTo (t : TypedExpr) : ∀ {ty : Ty},
    (∀ {node : TypedExpr}, node.Within t → AllParts Proper node.ty) → AllParts Proper ty →
    t.Takes Below ty → t.Takes WidensTo ty := by
  induction t using TypedExpr.of_children with
  | h t ih =>
      intro ty hnodes hty htakes
      cases htakes with
      | var hbelow => exact .var (Ty.widensTo_of_below _ _ hbelow hty (hnodes .self))
      | index => exact .index
      | «attribute» => exact .attribute
      | @tuple ts tys bound hparts =>
          have htys := (Ty.allParts_tuple.mp hty).2
          have hts : ∀ t ∈ ts, ∀ {ty : Ty}, AllParts Proper ty → t.Takes Below ty →
              t.Takes WidensTo ty :=
            fun t ht _ => ih t ht fun hnode => hnodes (.child ht hnode)
          refine .tuple ?_
          clear ih hnodes hty
          induction hparts with
          | nil => exact .nil
          | cons htake _ ih =>
              obtain ⟨hty, htys⟩ := List.forall_mem_cons.mp htys
              refine .cons (hts _ List.mem_cons_self hty htake) (ih htys fun t ht => ?_)
              exact hts t (List.mem_cons_of_mem _ ht)

-- Among proper types, what flows somewhere leaves the type there as it is when it
-- is joined into it.
theorem Stmt.Flows.widensTo {returnType : Ty} {s : TypedStmt}
    (henv : ∀ {name ty}, env.find? name = some ty → AllParts Proper ty)
    (hreturn : AllParts Proper returnType)
    (h : s.Flows Proper { env, returnType := some returnType }) :
    s.Bounded WidensTo env (some returnType) where
  vars t ht _ _ hvar := (h.bounded.vars t ht hvar).widensTo henv (h.nodes t ht hvar)
  assigned := by
    rintro target value rfl
    have hvalue := h.nodes value (by simp [Stmt.exprs]) .self
    exact (h.bounded.assigned rfl).widensTo target (h.nodes target List.mem_cons_self) hvalue
  merged merge hmerge := by
    obtain ⟨hleft, hright⟩ := merge.mem_exprs hmerge
    obtain ⟨hbelow, hbelow'⟩ := h.bounded.merged merge hmerge
    exact ⟨hbelow.widensTo henv (h.nodes _ hleft .self),
      hbelow'.widensTo henv (h.nodes _ hright .self)⟩
  returned := by
    rintro value rfl
    obtain ⟨bound, hbound, hbelow⟩ := h.bounded.returned rfl
    cases hbound
    have hvalue := h.nodes value List.mem_cons_self .self
    exact ⟨returnType, rfl, Ty.widensTo_of_below _ _ hbelow hvalue hreturn⟩

end WidensTo

-- What a session gives for proper arguments has a type for each variable in it,
-- and joining into that type what is read there, stored there or merged there
-- does not change it. So it is with the result and what is returned.
theorem specialize_bounded {limits : Limits} {defs : List Func} {store later : Store}
    (hstore : Reachable (.ofLimits limits) defs store) {name : String} {args : List Ty}
    {spec : Specialization} (hargs : ∀ arg ∈ args, AllParts Proper arg)
    (h : outcome (specialize (.ofLimits limits) name args) store = (.ok spec, later)) :
    ∀ s ∈ Stmt.withinBlock spec.body, s.Bounded WidensTo spec.env (some spec.returnType) := by
  have hflows := hstore.flows regime_proper (fun _ _ => regime_proper.admits hargs) h
  exact fun s hs => (hflows.body s hs).widensTo hflows.env hflows.returnType

-- The second variable of the loop is entered with an integer, and is a float in
-- the end.
theorem specialize_halve_bounded :
    let store := Operation.after (.ofLimits {}) {} (.register Demo.halve)
    ∃ spec later,
      outcome (specialize (.ofLimits {}) "halve" [.scalar .i64]) store = (.ok spec, later) ∧
      ∀ s ∈ Stmt.withinBlock spec.body, s.Bounded WidensTo spec.env (some spec.returnType) := by
  intro store
  have hstore : Reachable (.ofLimits {}) [Demo.halve] store :=
    .step (.register Demo.halve) .start
  obtain ⟨spec, later, h⟩ := Outcome.exists_ok
    (o := outcome (specialize (.ofLimits {}) "halve" [.scalar .i64]) store) (by decide +kernel)
  exact ⟨spec, later, h, specialize_bounded hstore (by decide) h⟩

end RankPoly
