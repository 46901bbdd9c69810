import RankPoly.Proofs.Outcome

namespace RankPoly

theorem SpecializeError.ofTy_ne_unboundName (error : TyError) (name : String) :
    SpecializeError.ofTy error ≠ .unboundName name := by
  cases error <;> exact nofun

namespace Annotate

variable {α β : Type}

-- Work that is the same whatever it is done on. No variables are read by it, so that it
-- does not fail to find one.
def Steady {α : Type} (m : Annotate α) : Prop :=
  (∃ a, m = pure a) ∨ ∃ error, (∀ name, error ≠ .unboundName name) ∧ m = throw error

namespace Steady

theorem pure (a : α) : Steady (pure a) :=
  Or.inl ⟨a, rfl⟩

theorem throw {error : SpecializeError} (h : ∀ name, error ≠ .unboundName name) :
    Steady (throw error : Annotate α) :=
  Or.inr ⟨error, h, rfl⟩

theorem ite {p : Prop} [Decidable p] {m m' : Annotate α} (h : Steady m) (h' : Steady m') :
    Steady (if p then m else m') := by
  split
  · exact h
  · exact h'

theorem bind {m : Annotate α} {k : α → Annotate β} (h : Steady m) (hk : ∀ a, Steady (k a)) :
    Steady (m >>= k) := by
  rcases h with ⟨a, rfl⟩ | ⟨error, herror, rfl⟩
  · exact hk a
  · exact .throw herror

theorem ofTy (result : Except TyError α) : Steady (ofTy result) := by
  cases result with
  | ok a => exact .pure a
  | error error => exact .throw (SpecializeError.ofTy_ne_unboundName error)

theorem requireCallable (t : TypedExpr) : Steady (requireCallable t) :=
  .ite (.pure t) (.throw nofun)

theorem fieldType (ty : Ty) (name : String) : Steady (fieldType ty name) := by
  unfold Annotate.fieldType
  split
  · exact .pure _
  · exact .throw nofun

theorem projectFrom (value : TypedExpr) (elems : List Ty) (selector : Expr) :
    Steady (projectFrom value elems selector) := by
  unfold Annotate.projectFrom
  split
  · split
    · split
      · exact .pure _
      · exact .throw nofun
    · exact .throw nofun
  · exact .throw nofun

theorem constAxis (operand : Option Expr) : Steady (constAxis operand) := by
  unfold Annotate.constAxis
  split
  · exact .pure _
  · exact .pure _
  · exact .ite (.pure _) (.throw nofun)
  · exact .throw nofun

theorem outerAxes (axis : Option Nat) (rank : Nat) : Steady (outerAxes axis rank) := by
  unfold Annotate.outerAxes
  split
  · exact .ite (.pure _) (.throw nofun)
  · exact .pure _

theorem require (condition : Bool) (reason : ShapeError) :
    Steady (require condition reason) :=
  .ite (.pure _) (.throw nofun)

theorem storeInto (value selector : TypedExpr) (stored : Ty) :
    Steady (storeInto value selector stored) :=
  .bind (.ofTy _) fun _ => .bind (.require _ _) fun _ => .bind (.ofTy _) fun _ => .pure _

-- A combiner leaves the type of the accumulator as it was.
theorem fixedPoint (acc result : Ty) : Steady (
    if result = acc then Pure.pure ()
    else MonadExcept.throw (.unsupported (.accumulator acc result)) : Annotate Unit) :=
  .ite (.pure ()) (.throw nofun)

-- What is left of a fold once its functions have been asked.
theorem foldResult (kind : Fold) (callee arg : TypedExpr) (combiner : Option TypedExpr)
    (axis : Option Nat) (acc : Ty) (count : Nat) : Steady (do
      let ty ←
        match kind with
        | .reduce => Pure.pure acc
        | .scan => Annotate.ofTy (acc.increaseRank count)
      return TypedExpr.fold kind callee arg axis combiner ty) := by
  cases kind with
  | reduce => exact .bind (.pure acc) fun _ => .pure _
  | scan => exact .bind (.ofTy _) fun _ => .pure _

end Steady

-- Work in two surroundings that is the same there, and steady, but for the calls that it
-- makes and the wrappers that it asks for.
inductive Asks (ctx ctx' : Context) : {α : Type} → Annotate α → Annotate α → Prop where
  | steady {α : Type} {m : Annotate α} : Steady m → Asks ctx ctx' m m
  | call (callee : Ty) (args : List Ty) :
      Asks ctx ctx' (liftM (ctx.invoke callee args)) (liftM (ctx'.invoke callee args))
  | primWrapper (op : Prim) :
      Asks ctx ctx' (liftM (Session.primWrapper op)) (liftM (Session.primWrapper op))
  | bind {α β : Type} {m m' : Annotate α} {k k' : α → Annotate β} :
      Asks ctx ctx' m m' → (∀ a, Asks ctx ctx' (k a) (k' a)) → Asks ctx ctx' (m >>= k) (m' >>= k')

variable (ctx ctx' : Context)

theorem applyPrim_asks (op : Prim) (args : List TypedExpr) :
    Asks ctx ctx' (applyPrim ctx op args) (applyPrim ctx' op args) := by
  refine .bind (.steady (.require _ _)) fun _ => ?_
  dsimp only
  split
  · exact .steady (.pure _)
  · split
    · exact .steady (.throw nofun)
    · exact .bind (.primWrapper op) fun _ => .bind (.call _ _) fun _ =>
        .bind (.steady (.ofTy _)) fun _ => .steady (.pure _)

theorem applyMap_asks (callee : TypedExpr) (args : List TypedExpr) (axis : Option Nat) :
    Asks ctx ctx' (applyMap ctx callee args axis) (applyMap ctx' callee args axis) :=
  .bind (.steady (.outerAxes _ _)) fun _ => .bind (.steady (.ofTy _)) fun _ =>
    .bind (.call _ _) fun _ => .bind (.steady (.ofTy _)) fun _ => .steady (.pure _)

theorem requireFixedPoint_asks (callee : TypedExpr) (acc : Ty) :
    Asks ctx ctx' (requireFixedPoint ctx callee acc) (requireFixedPoint ctx' callee acc) :=
  .bind (.call _ _) fun result => .steady (.fixedPoint acc result)

theorem applyFold_asks (kind : Fold) (callee arg : TypedExpr) (combiner : Option TypedExpr)
    (axis : Option Nat) :
    Asks ctx ctx' (applyFold ctx kind callee combiner arg axis)
      (applyFold ctx' kind callee combiner arg axis) := by
  refine .bind (.steady (.outerAxes _ _)) fun _ => .bind (.steady (.ofTy _)) fun acc =>
    .bind (requireFixedPoint_asks ctx ctx' _ _) fun _ => ?_
  cases combiner with
  | none => exact .steady (.foldResult kind callee arg none _ acc _)
  | some combiner =>
      exact .bind (requireFixedPoint_asks ctx ctx' _ _) fun _ =>
        .steady (.foldResult kind callee arg (some combiner) _ acc _)

theorem applyAllPairs_asks (callee lhs rhs : TypedExpr) (axis : Option Nat) :
    Asks ctx ctx' (applyAllPairs ctx callee lhs rhs axis)
      (applyAllPairs ctx' callee lhs rhs axis) := by
  have hrest : ∀ nested : List Ty × Option Nat, Asks ctx ctx'
      (do
        let elem ← ctx.invoke callee.ty nested.1
        let ty ← ofTy (elem.increaseRank 2)
        return TypedExpr.allPairs callee lhs rhs nested.2 ty)
      (do
        let elem ← ctx'.invoke callee.ty nested.1
        let ty ← ofTy (elem.increaseRank 2)
        return TypedExpr.allPairs callee lhs rhs nested.2 ty) :=
    fun _ => .bind (.call _ _) fun _ => .bind (.steady (.ofTy _)) fun _ => .steady (.pure _)
  unfold applyAllPairs
  cases axis with
  | none => exact .bind (.steady (.pure _)) hrest
  | some axis =>
      exact .bind (.steady (.outerAxes _ _)) fun _ =>
        .bind (.steady (.ofTy _)) fun _ => .bind (.steady (.pure _)) hrest

end Annotate

end RankPoly
