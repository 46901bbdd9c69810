import RankPoly.Proofs.Elaboration.Typing
import RankPoly.Proofs.Outcome

namespace RankPoly.Annotate

open Session (withWrapper wrapperName)

variable {ctx : Context} {locals locals' : Locals} {store later : Store}

theorem yields_requireCallable {t t' : TypedExpr} :
    Yields (requireCallable t) locals store t' locals' later ↔
      t.ty.isCallable = true ∧ t = t' ∧ locals = locals' ∧ store = later := by
  unfold requireCallable
  cases t.ty.isCallable with
  | false => simp [yields_throw]
  | true => simp [yields_pure]

theorem yields_fieldType {ty field : Ty} {name : String}
    (h : Yields (fieldType ty name) locals store field locals' later) :
    (∃ fields, ty = .struct fields ∧ NameMap.find? name fields = some field) ∧
      locals = locals' ∧ store = later := by
  unfold fieldType at h
  split at h
  · rename_i found hfound
    obtain ⟨rfl, rfl, rfl⟩ := yields_pure.mp h
    refine ⟨?_, rfl, rfl⟩
    cases ty <;> simp only [Ty.field?, reduceCtorEq] at hfound
    exact ⟨_, rfl, hfound⟩
  · exact (yields_throw h).elim

theorem slot?_eq {index : Int} {arity slot : Nat} (h : slot? index arity = some slot) :
    slot < arity ∧ (slot : Int) = if index < 0 then index + arity else index := by
  unfold slot? at h
  by_cases hneg : index < 0
  · simp only [if_pos hneg, Option.ite_none_right_eq_some, Option.some.injEq] at h ⊢
    omega
  · simp only [if_neg hneg, Option.ite_none_right_eq_some, Option.some.injEq] at h ⊢
    omega

theorem yields_projectFrom {value t : TypedExpr} {elems : List Ty} {selector : Expr}
    (h : Yields (projectFrom value elems selector) locals store t locals' later) :
    ∃ index slot ty, selector = .const (.int index) ∧ t = .project value slot ty ∧
      slot? index elems.length = some slot ∧ elems[slot]? = some ty ∧
      locals = locals' ∧ store = later := by
  unfold projectFrom at h
  split at h
  · rename_i index
    split at h
    · rename_i slot hslot
      split at h
      · rename_i ty hty
        obtain ⟨rfl, rfl, rfl⟩ := yields_pure.mp h
        exact ⟨index, slot, ty, rfl, rfl, hslot, hty, rfl, rfl⟩
      · exact (yields_throw h).elim
    · exact (yields_throw h).elim
  · exact (yields_throw h).elim

theorem constAxis_eq {operand : Option Expr} {given : Option Nat}
    (h : givenAxis operand = some given) : constAxis operand = pure given := by
  unfold givenAxis at h
  split at h
  · cases h
    rfl
  · cases h
    rfl
  · rename_i axis
    split at h <;> cases h
    rename_i hnonneg
    exact if_pos hnonneg
  · cases h

theorem yields_constAxis {operand : Option Expr} {given : Option Nat} :
    Yields (constAxis operand) locals store given locals' later ↔
      givenAxis operand = some given ∧ locals = locals' ∧ store = later := by
  constructor
  · intro h
    unfold constAxis at h
    split at h
    · obtain ⟨rfl, rfl, rfl⟩ := yields_pure.mp h
      exact ⟨rfl, rfl, rfl⟩
    · obtain ⟨rfl, rfl, rfl⟩ := yields_pure.mp h
      exact ⟨rfl, rfl, rfl⟩
    · split at h
      · rename_i hnonneg
        obtain ⟨rfl, rfl, rfl⟩ := yields_pure.mp h
        exact ⟨if_pos hnonneg, rfl, rfl⟩
      · exact (yields_throw h).elim
    · exact (yields_throw h).elim
  · rintro ⟨hgiven, rfl, rfl⟩
    rw [constAxis_eq hgiven]
    exact yields_pure.mpr ⟨rfl, rfl, rfl⟩

section Axes

variable {given : Option Nat} {rank : Nat}

-- An axis that is given has to be there, and one that is recorded for want of one is.
theorem recordedAxis_lt (h : ∀ i ∈ given, i < rank) : ∀ i ∈ recordedAxis given rank, i < rank := by
  cases given with
  | some axis => exact h
  | none =>
      intro i hi
      unfold recordedAxis at hi
      dsimp only at hi
      split at hi <;> cases hi
      omega

theorem outerAxes_eq (h : ∀ i ∈ given, i < rank) :
    outerAxes given rank = pure (axisCount (recordedAxis given rank), recordedAxis given rank) := by
  unfold outerAxes recordedAxis
  cases given with
  | some axis => exact if_pos (h axis rfl)
  | none => by_cases hrank : rank = 1 <;> simp [hrank, axisCount]

theorem yields_outerAxes {axis : Option Nat} {count : Nat} :
    Yields (outerAxes given rank) locals store (count, axis) locals' later ↔
      (∀ i ∈ given, i < rank) ∧ axis = recordedAxis given rank ∧ count = axisCount axis ∧
        locals = locals' ∧ store = later := by
  constructor
  · intro h
    have hrange : ∀ i ∈ given, i < rank := by
      rintro i ⟨⟩
      by_contra hge
      rw [outerAxes, if_neg hge] at h
      exact yields_throw h
    rw [outerAxes_eq hrange] at h
    obtain ⟨⟨⟩, rfl, rfl⟩ := yields_pure.mp h
    exact ⟨hrange, rfl, rfl, rfl, rfl⟩
  · rintro ⟨hrange, rfl, rfl, rfl, rfl⟩
    rw [outerAxes_eq hrange]
    exact yields_pure.mpr ⟨rfl, rfl, rfl⟩

end Axes

-- The axis that is recorded stands for itself.
@[simp] theorem recordedAxis_idem (given : Option Nat) (rank : Nat) :
    recordedAxis (recordedAxis given rank) rank = recordedAxis given rank := by
  cases given with
  | some axis => rfl
  | none => by_cases hrank : rank = 1 <;> simp [recordedAxis, hrank]

theorem axisCount_le {axis : Option Nat} {rank : Nat} (h : ∀ i ∈ axis, i < rank) :
    axisCount axis ≤ rank := by
  cases axis with
  | none => exact Nat.zero_le rank
  | some axis => exact Nat.one_le_of_lt (h axis rfl)

theorem axisCount_le_one (axis : Option Nat) : axisCount axis ≤ 1 := by
  cases axis with
  | none => exact Nat.zero_le 1
  | some axis => exact le_rfl

-- Calls with the same arguments, one after the other, and what comes of each.
inductive Calls (ctx : Context) (args : List Ty) : List Ty → Store → List Ty → Store → Prop where
  | nil {store : Store} : Calls ctx args [] store [] store
  | cons {callee ty : Ty} {callees tys : List Ty} {store between later : Store} :
      Session.Yields (ctx.invoke callee args) store ty between →
      Calls ctx args callees between tys later →
      Calls ctx args (callee :: callees) store (ty :: tys) later

-- The type of a fold, by that of what is folded. A scan has it for each step.
def foldType (kind : Fold) (acc : Ty) (count : Nat) : Except TyError Ty :=
  match kind with
  | .reduce => .ok acc
  | .scan => acc.increaseRank count

-- What is left of a fold once all calls have been made.
theorem yields_foldResult {kind : Fold} {g x t : TypedExpr} {combiner : Option TypedExpr}
    {axis : Option Nat} {acc : Ty} {count : Nat} :
    Yields (do
      let ty ←
        match kind with
        | .reduce => pure acc
        | .scan => ofTy (acc.increaseRank count)
      return .fold kind g x axis combiner ty) locals store t locals' later ↔
    ∃ ty, foldType kind acc count = .ok ty ∧ t = .fold kind g x axis combiner ty ∧
      locals = locals' ∧ store = later := by
  cases kind with
  | reduce =>
      simp only [foldType, yields_bind, yields_pure]
      constructor
      · rintro ⟨ty, _, _, ⟨rfl, rfl, rfl⟩, rfl, rfl, rfl⟩
        exact ⟨acc, rfl, rfl, rfl, rfl⟩
      · rintro ⟨ty, ⟨⟩, rfl, rfl, rfl⟩
        exact ⟨acc, locals, store, ⟨rfl, rfl, rfl⟩, rfl, rfl, rfl⟩
  | scan =>
      simp only [foldType, yields_bind, yields_ofTy, yields_pure]
      constructor
      · rintro ⟨ty, _, _, ⟨hty, rfl, rfl⟩, rfl, rfl, rfl⟩
        exact ⟨ty, hty, rfl, rfl, rfl⟩
      · rintro ⟨ty, hty, rfl, rfl, rfl⟩
        exact ⟨ty, locals, store, ⟨hty, rfl, rfl⟩, rfl, rfl, rfl⟩

section Applied

variable {callee t : TypedExpr} {given : Option Nat}

theorem yields_primWrapper {op : Prim} {name : String} :
    Session.Yields (Session.primWrapper op) store name later ↔
      name = wrapperName op ∧ later = withWrapper op store := by
  unfold Session.Yields
  rw [Session.outcome_primWrapper]
  simp [eq_comm]

-- An operator on scalars is applied as it is. One on arrays asks for its wrapper, and calls
-- that with the elements as the operator takes them.
theorem yields_applyPrim {op : Prim} {ts : List TypedExpr} :
    Yields (applyPrim ctx op ts) locals store t locals' later ↔
      ts.length = op.arity ∧ locals = locals' ∧
        ((∃ kinds, (typesOf ts).mapM Ty.scalar? = some kinds ∧
            t = .prim op ts (.scalar (op.result kinds)) ∧ store = later) ∨
          (typesOf ts).mapM Ty.scalar? = none ∧ ∃ kinds elem ty,
            (typesOf ts).mapM elementKind? = some kinds ∧
            Session.Yields (ctx.invoke (.closure ⟨wrapperName op, []⟩)
              ((op.inputs kinds).map Ty.scalar)) (withWrapper op store) elem later ∧
            elem.increaseRank (Ty.maxRank (typesOf ts)) = .ok ty ∧
            t = .map (.closure (wrapperName op) [] (.closure ⟨wrapperName op, []⟩)) ts none
              ty) := by
  simp only [applyPrim, yields_bind, yields_require, decide_eq_true_eq]
  constructor
  · rintro ⟨_, _, _, ⟨hlength, rfl, rfl⟩, h⟩
    cases hscalar : (typesOf ts).mapM Ty.scalar? with
    | some kinds =>
        simp only [hscalar, yields_pure] at h
        obtain ⟨rfl, rfl, rfl⟩ := h
        exact ⟨hlength, rfl, .inl ⟨kinds, rfl, rfl, rfl⟩⟩
    | none =>
        cases hkinds : (typesOf ts).mapM elementKind? with
        | none =>
            simp only [hscalar, hkinds] at h
            exact (yields_throw h).elim
        | some kinds =>
            simp only [hscalar, hkinds, yields_bind, yields_lift, yields_ofTy, yields_pure,
              yields_primWrapper] at h
            obtain ⟨_, _, _, ⟨rfl, rfl, rfl⟩, elem, _, _, ⟨rfl, hcall⟩, ty, _, _,
              ⟨hty, rfl, rfl⟩, rfl, rfl, rfl⟩ := h
            exact ⟨hlength, rfl, .inr ⟨rfl, kinds, elem, ty, rfl, hcall, hty, rfl⟩⟩
  · rintro ⟨hlength, rfl, h⟩
    refine ⟨(), _, _, ⟨hlength, rfl, rfl⟩, ?_⟩
    obtain ⟨kinds, hscalar, rfl, rfl⟩ | ⟨hscalar, kinds, elem, ty, hkinds, hcall, hty, rfl⟩ := h
    · simp only [hscalar]
      exact yields_pure.mpr ⟨rfl, rfl, rfl⟩
    · simp only [hscalar, hkinds, yields_bind, yields_lift, yields_ofTy, yields_pure,
        yields_primWrapper]
      exact ⟨_, _, _, ⟨rfl, rfl, rfl⟩, elem, _, _, ⟨rfl, hcall⟩, ty, _, _, ⟨hty, rfl, rfl⟩, rfl,
        rfl, rfl⟩

theorem yields_applyMap {ts : List TypedExpr} :
    Yields (applyMap ctx callee ts given) locals store t locals' later ↔
      ∃ axis nested elem ty, axis = recordedAxis given (Ty.maxRank (typesOf ts)) ∧
        (∀ i ∈ given, i < Ty.maxRank (typesOf ts)) ∧
        Ty.lowerRanks (typesOf ts) (axisCount axis) = .ok nested ∧
        Session.Yields (ctx.invoke callee.ty nested) store elem later ∧
        elem.increaseRank (axisCount axis) = .ok ty ∧ t = .map callee ts axis ty ∧
        locals = locals' := by
  simp only [applyMap, yields_bind, Prod.exists, yields_outerAxes, yields_ofTy, yields_lift,
    yields_pure]
  constructor
  · rintro ⟨_, axis, _, _, ⟨hrange, haxis, rfl, rfl, rfl⟩, nested, _, _, ⟨hnested, rfl, rfl⟩, elem,
      _, _, ⟨rfl, hcall⟩, ty, _, _, ⟨hty, rfl, rfl⟩, rfl, rfl, rfl⟩
    exact ⟨axis, nested, elem, ty, haxis, hrange, hnested, hcall, hty, rfl, rfl⟩
  · rintro ⟨axis, nested, elem, ty, haxis, hrange, hnested, hcall, hty, rfl, rfl⟩
    exact ⟨_, axis, _, _, ⟨hrange, haxis, rfl, rfl, rfl⟩, nested, _, _, ⟨hnested, rfl, rfl⟩, elem,
      _, _, ⟨rfl, hcall⟩, ty, _, _, ⟨hty, rfl, rfl⟩, rfl, rfl, rfl⟩

theorem yields_applyAllPairs {lhs rhs : TypedExpr} :
    Yields (applyAllPairs ctx callee lhs rhs given) locals store t locals' later ↔
      ∃ nested elem ty, PairTypes [lhs.ty, rhs.ty] given nested ∧
        Session.Yields (ctx.invoke callee.ty nested) store elem later ∧
        elem.increaseRank 2 = .ok ty ∧
        t = .allPairs callee lhs rhs (recordedAxis given (Ty.maxRank [lhs.ty, rhs.ty])) ty ∧
        locals = locals' := by
  unfold applyAllPairs
  cases given with
  | none =>
      simp only [yields_bind, Prod.exists, yields_ofTy, yields_lift, yields_pure, Prod.mk.injEq]
      constructor
      · rintro ⟨_, _, _, _, ⟨⟨rfl, rfl⟩, rfl, rfl⟩, elem, _, _, ⟨rfl, hcall⟩, ty, _, _,
          ⟨hty, rfl, rfl⟩, rfl, rfl, rfl⟩
        exact ⟨_, elem, ty, .elements, hcall, hty, rfl, rfl⟩
      · rintro ⟨_, elem, ty, ⟨⟩, hcall, hty, rfl, rfl⟩
        exact ⟨_, _, _, _, ⟨⟨rfl, rfl⟩, rfl, rfl⟩, elem, _, _, ⟨rfl, hcall⟩, ty, _, _,
          ⟨hty, rfl, rfl⟩, rfl, rfl, rfl⟩
  | some axis =>
      simp only [yields_bind, Prod.exists, yields_outerAxes, yields_ofTy, yields_lift,
        yields_pure, Prod.mk.injEq]
      constructor
      · rintro ⟨_, _, _, _, ⟨hrange, rfl, rfl, rfl, rfl⟩, nested, _, _, ⟨hnested, rfl, rfl⟩, _, _,
          _, _, ⟨⟨rfl, rfl⟩, rfl, rfl⟩, elem, _, _, ⟨rfl, hcall⟩, ty, _, _, ⟨hty, rfl, rfl⟩, rfl,
          rfl, rfl⟩
        exact ⟨nested, elem, ty, .along (hrange axis rfl) hnested, hcall, hty, rfl, rfl⟩
      · rintro ⟨nested, elem, ty, hnested, hcall, hty, rfl, rfl⟩
        cases hnested with
        | along hrange hnested =>
            have hrange : ∀ i ∈ some axis, i < Ty.maxRank [lhs.ty, rhs.ty] := by
              simpa using hrange
            exact ⟨_, _, _, _, ⟨hrange, rfl, rfl, rfl, rfl⟩, nested, _, _, ⟨hnested, rfl, rfl⟩, _, _,
              _, _, ⟨⟨rfl, rfl⟩, rfl, rfl⟩, elem, _, _, ⟨rfl, hcall⟩, ty, _, _, ⟨hty, rfl, rfl⟩,
              rfl, rfl, rfl⟩

theorem yields_requireFixedPoint {acc : Ty} {u : Unit} :
    Yields (requireFixedPoint ctx callee acc) locals store u locals' later ↔
      Session.Yields (ctx.invoke callee.ty [acc, acc]) store acc later ∧ locals = locals' := by
  simp only [requireFixedPoint, yields_bind, yields_lift]
  constructor
  · rintro ⟨result, _, _, ⟨rfl, hcall⟩, h⟩
    split at h
    · rename_i heq
      obtain ⟨-, rfl, rfl⟩ := yields_pure.mp h
      exact ⟨heq ▸ hcall, rfl⟩
    · exact (yields_throw h).elim
  · rintro ⟨hcall, rfl⟩
    refine ⟨acc, _, _, ⟨rfl, hcall⟩, ?_⟩
    rw [if_pos rfl]
    exact yields_pure.mpr ⟨rfl, rfl, rfl⟩

-- A fold comes to something if all calls that it makes give back what they are made with.
theorem yields_applyFold {kind : Fold} {arg : TypedExpr} {combiner : Option TypedExpr} :
    Yields (applyFold ctx kind callee combiner arg given) locals store t locals' later ↔
      ∃ axis acc ty, axis = recordedAxis given arg.ty.rank ∧ (∀ i ∈ given, i < arg.ty.rank) ∧
        arg.ty.lowerRank (axisCount axis) = .ok acc ∧
        Calls ctx [acc, acc] (typesOf (callee :: combiner.toList)) store
          ((callee :: combiner.toList).map fun _ => acc) later ∧
        foldType kind acc (axisCount axis) = .ok ty ∧ t = .fold kind callee arg axis combiner ty ∧
        locals = locals' := by
  simp only [applyFold, yields_bind, Prod.exists, yields_outerAxes, yields_ofTy,
    yields_requireFixedPoint]
  constructor
  · rintro ⟨_, axis, _, _, ⟨hrange, haxis, rfl, rfl, rfl⟩, acc, _, _, ⟨hacc, rfl, rfl⟩, _, _, _,
      ⟨hcall, rfl⟩, h⟩
    cases combiner with
    | none =>
        obtain ⟨ty, hty, rfl, rfl, rfl⟩ := yields_foldResult.mp h
        exact ⟨axis, acc, ty, haxis, hrange, hacc, .cons hcall .nil, hty, rfl, rfl⟩
    | some combiner =>
        obtain ⟨_, _, _, hfixed, h⟩ := yields_bind.mp h
        obtain ⟨hcall', rfl⟩ := yields_requireFixedPoint.mp hfixed
        obtain ⟨ty, hty, rfl, rfl, rfl⟩ := yields_foldResult.mp h
        exact ⟨axis, acc, ty, haxis, hrange, hacc, .cons hcall (.cons hcall' .nil), hty, rfl, rfl⟩
  · rintro ⟨axis, acc, ty, haxis, hrange, hacc, hcalls, hty, rfl, rfl⟩
    cases hcalls with
    | cons hcall hcalls =>
        refine ⟨_, axis, _, _, ⟨hrange, haxis, rfl, rfl, rfl⟩, acc, _, _, ⟨hacc, rfl, rfl⟩, (), _,
          _, ⟨hcall, rfl⟩, ?_⟩
        cases combiner with
        | none =>
            cases hcalls
            exact yields_foldResult.mpr ⟨ty, hty, rfl, rfl, rfl⟩
        | some combiner =>
            cases hcalls with
            | cons hcall' hcalls =>
                cases hcalls
                refine yields_bind.mpr ⟨(), _, _, yields_requireFixedPoint.mpr ⟨hcall', rfl⟩, ?_⟩
                exact yields_foldResult.mpr ⟨ty, hty, rfl, rfl, rfl⟩

end Applied

end RankPoly.Annotate
