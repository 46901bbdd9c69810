import Mathlib.Data.List.Perm.Basic
import RankPoly.Proofs.Elaboration.Expr
import RankPoly.Proofs.Session.Upheld

namespace RankPoly

open Annotate (Yields expr exprs typesOf)
open Session

-- Locals under names that have been drawn, as they are anywhere in a function body.
structure Locals.Drawn (locals : Locals) (fresh : Fresh) : Prop where
  names : ∀ {name known}, locals.naming name known → fresh.Drew known
  env : ∀ {known}, known ∈ locals.env.keys → fresh.Drew known
  sorted : locals.env.Sorted

theorem Locals.Drawn.start (fresh : Fresh) : Locals.Drawn {} fresh :=
  ⟨nofun, nofun, .nil⟩

section Retyped

variable {limits limits' : Limits} {defs : List Func} {depth depth' : Nat}
  {waiting waiting' : List Request} {locals locals' locals₁ locals₂ : Locals} {fresh : Fresh}
  {store store' later later' : Store}

-- Two runs that may both stop at any time, in sound stores with the same definitions.
def bothSound (defs : List Func) : Comparison :=
  { Correspondence.same with
    agree := fun store store' => Sound defs store ∧ Sound defs store'
    grows := fun _ _ => True
    within := fun _ => True
    held := fun _ _ _ => True
    leftFree := fun _ => True
    rightFree := fun _ => True }

-- Calls that are answered in both runs are answered alike, as both rest on the same
-- definitions.
theorem bothSound_answers (hstore : Sound defs store) (hstore' : Sound defs store') (callee : Ty)
    (args : List Ty) :
    (bothSound defs).Answers store store'
      (outcome ((contextOf limits depth waiting).invoke callee args) store)
      (outcome ((contextOf limits' depth' waiting').invoke callee args) store') := by
  rcases h : outcome ((contextOf limits depth waiting).invoke callee args) store with
    ⟨error | ty, later⟩ <;>
    rcases h' : outcome ((contextOf limits' depth' waiting').invoke callee args) store' with
      ⟨error' | ty', later'⟩
  · exact Or.inl trivial
  · trivial
  · trivial
  · obtain ⟨hgrows, hlater, hanswer⟩ := (answering_sound limits defs depth waiting).invoke hstore h
    obtain ⟨hgrows', hlater', hanswer'⟩ :=
      (answering_sound limits' defs depth' waiting').invoke hstore' h'
    have hsame : SameFuncs later.funcs later'.funcs :=
      hlater.registry.sameFuncs_of_same hlater'.registry
        (fun func hfunc => ⟨func, hfunc, .refl func⟩) fun func hfunc => ⟨func, hfunc, rfl⟩
    refine ⟨answer_agree ?_ hanswer hanswer', ⟨hlater, hlater'⟩, hgrows.fresh, hgrows'.fresh⟩
    exact hlater.grounded.results_agree hsame hlater'.grounded

theorem bothSound_agrees (limits limits' : Limits) (defs : List Func) (depth depth' : Nat)
    (waiting waiting' : List Request) :
    Comparison.Agrees (fun store store' => Sound defs store ∧ Sound defs store') (fun _ => True)
      (fun _ => True) (contextOf limits depth waiting) (contextOf limits' depth' waiting') where
  fresh name name' h :=
    ⟨(answering_sound limits defs depth waiting).fresh name h.1,
      (answering_sound limits defs depth waiting).fresh name' h.2⟩
  registered _ _ := by
    refine Or.inr ?_
    split <;> trivial
  invoke callee args h := bothSound_answers h.1 h.2 callee args
  lifted op args h := by
    rw [Comparison.outcome_lifted, Comparison.outcome_lifted]
    refine (bothSound_answers ?_ ?_ _ args).of_withWrapper
    · exact (answering_sound limits defs depth waiting).addWrapper op h.1
    · exact (answering_sound limits defs depth waiting).addWrapper op h.2
  limit_lt _ _ := trivial
  limit_gt := fun _ _ _ _ => trivial

theorem bothSound_respects (limits limits' : Limits) (defs : List Func) (depth depth' : Nat)
    (waiting waiting' : List Request) :
    (bothSound defs).Respects (contextOf limits depth waiting)
      (contextOf limits' depth' waiting') :=
  (bothSound_agrees limits limits' defs depth depth' waiting waiting').respects

theorem Locals.Drawn.linked (h : locals.Drawn fresh) (hstore : Sound defs store)
    (hstore' : Sound defs store') (hle : fresh.next ≤ store.fresh.next)
    (hle' : fresh.next ≤ store'.fresh.next) :
    (bothSound defs).Linked (fun m n => m = n ∧ fresh.Drew m) locals store locals store' where
  unique := ⟨fun _ _ _ h h' => h.1.trans h'.1.symm, fun _ _ _ h h' => h.1.symm.trans h'.1⟩
  drawn := by
    rintro name _ ⟨rfl, hname⟩
    exact ⟨hname.mono hle, hname.mono hle'⟩
  held _ := trivial
  names := by
    intro name
    change Option.Rel _ (locals.names.find? name) (locals.names.find? name)
    cases hknown : locals.names.find? name with
    | none => exact .none
    | some known => exact .some ⟨rfl, h.names hknown⟩
  env :=
    { lookup := by
        rintro name _ ⟨rfl, -⟩
        exact optionRel_eq_iff.mpr rfl
      left := fun hname => ⟨_, rfl, h.env hname⟩
      right := fun hname => ⟨_, rfl, h.env hname⟩ }
  sorted := ⟨h.sorted, h.sorted⟩
  returnType := rfl
  agree := ⟨hstore, hstore'⟩

-- An expression has one type, wherever in a session its parts have been asked for.
theorem retyped (hlocals : locals.Drawn fresh) (hstore : Sound defs store)
    (hstore' : Sound defs store') (hle : fresh.next ≤ store.fresh.next)
    (hle' : fresh.next ≤ store'.fresh.next) {e : Expr} {t t' : TypedExpr}
    (h : Yields (expr (contextOf limits depth waiting) e) locals store t locals₁ later)
    (h' : Yields (expr (contextOf limits' depth' waiting') e) locals store' t' locals₂ later') :
    t.ty = t'.ty := by
  have hW := bothSound_respects limits limits' defs depth depth' waiting waiting'
  have hends := (Comparison.Sim.expr hW _ e e (.refl (bothSound defs).literal_refl e)).ends le_rfl
    (hlocals.linked hstore hstore' hle hle') trivial
  unfold Annotate.Yields at h h'
  rw [h, h'] at hends
  obtain ⟨naming, -, -, halike⟩ := hends
  exact halike.ty_eq

-- The types that an expression can have with some locals, in a session of which the names
-- after the first ones are not used by them.
def Types (limits : Limits) (defs : List Func) (depth : Nat) (waiting : List Request)
    (locals : Locals) (fresh : Fresh) (e : Expr) (ty : Ty) : Prop :=
  ∃ store t later, Sound defs store ∧ fresh.next ≤ store.fresh.next ∧
    Yields (expr (contextOf limits depth waiting) e) locals store t locals later ∧ t.ty = ty

theorem types_of_exprs {es : List Expr} {ts : List TypedExpr} (hstore : Sound defs store)
    (hle : fresh.next ≤ store.fresh.next)
    (h : Yields (exprs (contextOf limits depth waiting) es) locals store ts locals₁ later) :
    List.Forall₂ (Types limits defs depth waiting locals fresh) es (typesOf ts) := by
  induction es generalizing store ts with
  | nil =>
      obtain ⟨rfl, -, -⟩ := Annotate.yields_exprs_nil h
      exact .nil
  | cons e es ih =>
      obtain ⟨t, locals', between, ts, he, hes, rfl⟩ := Annotate.yields_exprs_cons h
      have hctx := answering_sound limits defs depth waiting
      obtain ⟨⟨rfl, hgrows, hbetween⟩, -⟩ := Annotate.expr_elaborates hctx e hstore he
      exact .cons ⟨store, t, between, hstore, hle, he, rfl⟩
        (ih hbetween (hle.trans hgrows.fresh) hes)

-- In another order, expressions have the same types, if they are typed at all.
theorem retyped_perm (hlocals : locals.Drawn store.fresh) (hstore : Sound defs store)
    {es es' : List Expr} {ts ts' : List TypedExpr} (hperm : es.Perm es')
    (h : Yields (exprs (contextOf limits depth waiting) es) locals store ts locals₁ later)
    (h' : Yields (exprs (contextOf limits depth waiting) es') locals store ts' locals₂ later') :
    (typesOf ts).Perm (typesOf ts') := by
  have hunique : Relator.RightUnique (Types limits defs depth waiting locals store.fresh) := by
    rintro e ty ty' ⟨_, t, _, hfirst, hle, ht, rfl⟩ ⟨_, t', _, hsecond, hle', ht', rfl⟩
    exact retyped hlocals hfirst hsecond hle hle' ht ht'
  exact List.rel_perm_imp hunique (types_of_exprs hstore le_rfl h)
    (types_of_exprs hstore le_rfl h') hperm

end Retyped

end RankPoly
