import RankPoly.Proofs.Lockstep.Locals

namespace RankPoly

theorem TypedExpr.Alike.typesOf_eq {naming : Naming} {literal : Const → Const → Prop}
    {xs ys : List TypedExpr} (h : List.Forall₂ (Alike naming literal) xs ys) :
    Annotate.typesOf xs = Annotate.typesOf ys := by
  induction h with
  | nil => rfl
  | cons hx _ ih => exact congrArg₂ List.cons hx.ty_eq ih

namespace Comparison

open Annotate (Context)

variable {W : Comparison} {naming : Naming} {ctx ctx' : Context}

-- Typed expressions of both runs.
abbrev typed (W : Comparison) : Likeness TypedExpr :=
  .typed W.toCorrespondence

theorem Sim.requireCallable (hW : W.Respects ctx ctx') {x y : TypedExpr}
    (h : x.Alike naming W.literal y) :
    W.Sim naming W.typed (Annotate.requireCallable x) (Annotate.requireCallable y) := by
  unfold Annotate.requireCallable
  rw [h.ty_eq]
  split
  · exact .value hW h
  · exact .failure hW (.refl _)

theorem Sim.fieldType (hW : W.Respects ctx ctx') (ty : Ty) (name : String) :
    W.Sim naming (.eq Ty) (Annotate.fieldType ty name) (Annotate.fieldType ty name) := by
  unfold Annotate.fieldType
  split
  · exact .value hW rfl
  · exact .failure hW (.refl _)

theorem Sim.projectFrom (hW : W.Respects ctx ctx') {x y : TypedExpr} {i j : Expr}
    (elems : List Ty) (h : x.Alike naming W.literal y) (hi : i.Alike W.naming W.literal j) :
    W.Sim naming W.typed (Annotate.projectFrom x elems i) (Annotate.projectFrom y elems j) := by
  cases hi with
  | const hc =>
      rcases W.literal_cases hc with rfl | ⟨_, _, rfl, rfl⟩
      · unfold Annotate.projectFrom
        split
        · split
          · split
            · exact .value hW (.project h)
            · exact .failure hW (.refl _)
          · exact .failure hW (.refl _)
        · exact .failure hW (.refl _)
      · exact .failure hW (.refl _)
  | _ => exact .failure hW (.refl _)

theorem Sim.constAxis (hW : W.Respects ctx ctx') {a b : Option Expr}
    (h : Option.Rel (Expr.Alike W.naming W.literal) a b) :
    W.Sim naming (.eq (Option Nat)) (Annotate.constAxis a) (Annotate.constAxis b) := by
  cases h with
  | none => exact .value hW rfl
  | some hx =>
      cases hx with
      | const hc =>
          rcases W.literal_cases hc with rfl | ⟨_, _, rfl, rfl⟩
          · unfold Annotate.constAxis
            split
            · exact .value hW rfl
            · exact .value hW rfl
            · split
              · exact .value hW rfl
              · exact .failure hW (.refl _)
            · exact .failure hW (.refl _)
          · exact .failure hW (.axis (.const hc))
      | _ =>
          refine .failure hW (.axis ?_)
          constructor <;> assumption

theorem Sim.outerAxes (hW : W.Respects ctx ctx') (axis : Option Nat) (rank : Nat) :
    W.Sim naming (.eq (Nat × Option Nat)) (Annotate.outerAxes axis rank)
      (Annotate.outerAxes axis rank) := by
  unfold Annotate.outerAxes
  split
  · split
    · exact .value hW rfl
    · exact .failure hW (.refl _)
  · exact .value hW rfl

-- The wrapper and its call are one step: what a call needs is only known
-- together with the wrapper.
theorem Sim.wrapped (hW : W.Respects ctx ctx') {α : Type} {P : Likeness α} (op : Prim)
    (args : List Ty) {k k' : String → Ty → Annotate α}
    (hk : ∀ {later}, naming ≤ later → ∀ ty,
      W.Sim later P (k (Session.wrapperName op) ty) (k' (Session.wrapperName op) ty)) :
    W.Sim naming P
      (do let name ← Session.primWrapper op
          let ty ← ctx.invoke (.closure ⟨name, []⟩) args
          k name ty)
      (do let name ← Session.primWrapper op
          let ty ← ctx'.invoke (.closure ⟨name, []⟩) args
          k' name ty) := by
  have hstep : W.Sim naming P
      (liftM (Comparison.lifted ctx.invoke op args) >>= k (Session.wrapperName op))
      (liftM (Comparison.lifted ctx'.invoke op args) >>= k' (Session.wrapperName op)) := by
    refine .bind hW (.lifted hW op args) ?_
    rintro later hle ty _ rfl
    exact hk hle ty
  refine hstep.congr ?_ ?_ <;>
    (intro locals store
     simp only [Annotate.outcome_bind, Annotate.outcome_lift, Comparison.lifted,
       Session.outcome_bind, Session.outcome_primWrapper, Outcome.andThen_ok])

theorem Sim.applyPrim (hW : W.Respects ctx ctx') (op : Prim) {xs ys : List TypedExpr}
    (h : List.Forall₂ (TypedExpr.Alike naming W.literal) xs ys) :
    W.Sim naming W.typed (Annotate.applyPrim ctx op xs) (Annotate.applyPrim ctx' op ys) := by
  unfold Annotate.applyPrim
  rw [TypedExpr.Alike.typesOf_eq h, h.length_eq]
  refine .bind hW (.require hW _ _) fun hle _ _ _ => ?_
  dsimp only
  split
  · exact .value hW (.prim (h.imp fun _ _ => .mono hle))
  · split
    · exact .failure hW (.refl _)
    · refine .wrapped hW op _ fun hle' ty => ?_
      refine .bind hW (.ofTy hW _) ?_
      rintro later hle'' ty _ rfl
      have hle := (hle.trans hle').trans hle''
      exact .value hW (.map (.closure .nil) (h.imp fun _ _ => .mono hle))

theorem Sim.applyMap (hW : W.Respects ctx ctx') {f g : TypedExpr} {xs ys : List TypedExpr}
    (axis : Option Nat) (hf : f.Alike naming W.literal g)
    (h : List.Forall₂ (TypedExpr.Alike naming W.literal) xs ys) :
    W.Sim naming W.typed (Annotate.applyMap ctx f xs axis) (Annotate.applyMap ctx' g ys axis) := by
  unfold Annotate.applyMap
  rw [TypedExpr.Alike.typesOf_eq h, hf.ty_eq]
  refine .bind hW (.outerAxes hW _ _) ?_
  rintro _ hle₁ ⟨count, axis⟩ _ rfl
  refine .bind hW (.ofTy hW _) ?_
  rintro _ hle₂ nested _ rfl
  refine .bind hW (.invoke hW _ _) ?_
  rintro _ hle₃ elem _ rfl
  refine .bind hW (.ofTy hW _) ?_
  rintro _ hle₄ ty _ rfl
  have hle := ((hle₁.trans hle₂).trans hle₃).trans hle₄
  exact .value hW (.map (hf.mono hle) (h.imp fun _ _ => .mono hle))

theorem Sim.requireFixedPoint (hW : W.Respects ctx ctx') {f g : TypedExpr} (acc : Ty)
    (hf : f.Alike naming W.literal g) :
    W.Sim naming (.eq Unit) (Annotate.requireFixedPoint ctx f acc)
      (Annotate.requireFixedPoint ctx' g acc) := by
  unfold Annotate.requireFixedPoint
  rw [hf.ty_eq]
  refine .bind hW (.invoke hW _ _) ?_
  rintro _ _ result _ rfl
  split
  · exact .value hW rfl
  · exact .failure hW (.refl _)

theorem Sim.applyFold (hW : W.Respects ctx ctx') (kind : Fold) {f g x y : TypedExpr}
    {c d : Option TypedExpr} (axis : Option Nat) (hf : f.Alike naming W.literal g)
    (hc : Option.Rel (TypedExpr.Alike naming W.literal) c d) (hx : x.Alike naming W.literal y) :
    W.Sim naming W.typed (Annotate.applyFold ctx kind f c x axis)
      (Annotate.applyFold ctx' kind g d y axis) := by
  unfold Annotate.applyFold
  rw [hx.ty_eq]
  refine .bind hW (.outerAxes hW _ _) ?_
  rintro _ hle₁ ⟨count, axis⟩ _ rfl
  refine .bind hW (.ofTy hW _) ?_
  rintro _ hle₂ acc _ rfl
  have hle := hle₁.trans hle₂
  refine .bind hW (.requireFixedPoint hW acc (hf.mono hle)) ?_
  rintro later hle₃ _ _ -
  have hle := hle.trans hle₃
  -- Whether the type is the accumulator's or raised, both sides take the same.
  have hresult : ∀ {last} {result : Annotate Ty}, later ≤ last →
      W.Sim last (.eq Ty) result result →
      W.Sim last W.typed (do return .fold kind f x axis c (← result))
        (do return .fold kind g y axis d (← result)) := by
    intro last result hlast hresult
    refine .bind hW hresult ?_
    rintro _ hle₄ ty _ rfl
    have hle := (hle.trans hlast).trans hle₄
    exact .value hW
      (.fold (hf.mono hle) (hx.mono hle) (optionRel_imp (fun _ _ => .mono hle) hc))
  cases hc with
  | none =>
      cases kind with
      | reduce => exact hresult le_rfl (.value hW rfl)
      | scan => exact hresult le_rfl (.ofTy hW _)
  | some hc =>
      refine .bind hW (.requireFixedPoint hW acc (hc.mono hle)) ?_
      rintro _ hle₄ _ _ -
      cases kind with
      | reduce => exact hresult hle₄ (.value hW rfl)
      | scan => exact hresult hle₄ (.ofTy hW _)

theorem Sim.applyAllPairs (hW : W.Respects ctx ctx') {f g x y v w : TypedExpr}
    (axis : Option Nat) (hf : f.Alike naming W.literal g) (hx : x.Alike naming W.literal y)
    (hv : v.Alike naming W.literal w) :
    W.Sim naming W.typed (Annotate.applyAllPairs ctx f x v axis)
      (Annotate.applyAllPairs ctx' g y w axis) := by
  unfold Annotate.applyAllPairs
  rw [hf.ty_eq, hx.ty_eq, hv.ty_eq]
  have hcall : ∀ {later}, naming ≤ later → ∀ nested axis, W.Sim later W.typed
      (do let elem ← ctx.invoke g.ty nested
          let ty ← Annotate.ofTy (elem.increaseRank 2)
          pure (.allPairs f x v axis ty))
      (do let elem ← ctx'.invoke g.ty nested
          let ty ← Annotate.ofTy (elem.increaseRank 2)
          pure (.allPairs g y w axis ty)) := by
    intro later hle nested axis
    refine .bind hW (.invoke hW _ _) ?_
    rintro _ hle₁ elem _ rfl
    refine .bind hW (.ofTy hW _) ?_
    rintro _ hle₂ ty _ rfl
    have hle := (hle.trans hle₁).trans hle₂
    exact .value hW (.allPairs (hf.mono hle) (hx.mono hle) (hv.mono hle))
  cases axis with
  | none => exact hcall le_rfl _ _
  | some axis =>
      refine .bind hW (.outerAxes hW _ _) ?_
      rintro _ hle₁ ⟨count, axis⟩ _ rfl
      refine .bind hW (.ofTy hW _) ?_
      rintro _ hle₂ nested _ rfl
      exact hcall (hle₁.trans hle₂) _ _

-- Every adverb has its axis looked at first, and then the function that it is given.
theorem Sim.adverb (hW : W.Respects ctx ctx') {a b : Option Expr} {f g : Expr}
    {k k' : Option Nat → TypedExpr → Annotate TypedExpr}
    (h : Option.Rel (Expr.Alike W.naming W.literal) a b)
    (hf : ∀ later, W.Sim later W.typed (Annotate.expr ctx f) (Annotate.expr ctx' g))
    (hk : ∀ later axis f g, f.Alike later W.literal g →
      W.Sim later W.typed (k axis f) (k' axis g)) :
    W.Sim naming W.typed
      (do
        let axis ← Annotate.constAxis a
        let callee ← Annotate.requireCallable (← Annotate.expr ctx f)
        k axis callee)
      (do
        let axis ← Annotate.constAxis b
        let callee ← Annotate.requireCallable (← Annotate.expr ctx' g)
        k' axis callee) := by
  refine .bind hW (.constAxis hW h) ?_
  rintro _ _ axis _ rfl
  refine .bind hW (hf _) ?_
  intro _ _ f g hfg
  refine .bind hW (.requireCallable hW hfg) ?_
  intro later _ f g hfg
  exact hk later axis f g hfg

mutual

-- Expressions that correspond are typed in lockstep, part by part.
theorem Sim.expr (hW : W.Respects ctx ctx') (naming : Naming) :
    ∀ x y : Expr, x.Alike W.naming W.literal y →
      W.Sim naming W.typed (Annotate.expr ctx x) (Annotate.expr ctx' y)
  | .var m, _, .var rfl => by
      unfold Annotate.expr
      refine .bind hW (.read hW m) ?_
      rintro _ _ ⟨known, ty⟩ ⟨known', _⟩ ⟨hmn, rfl⟩
      exact .value hW (.var hmn)
  | .const c, _, .const hc => by
      unfold Annotate.expr
      rw [W.ty_eq hc]
      exact .value hW (.const hc)
  | .tuple xs, _, .tuple h => by
      unfold Annotate.expr
      refine .bind hW (exprs hW naming xs _ h) ?_
      intro _ _ xs ys hxs
      rw [TypedExpr.Alike.typesOf_eq hxs]
      exact .value hW (.tuple hxs)
  | .array xs, .array ys, .array h => by
      unfold Annotate.expr
      have hempty : xs.isEmpty = ys.isEmpty := by cases h <;> rfl
      rw [hempty]
      refine .bind hW (.require hW _ _) fun _ _ _ _ => ?_
      refine .bind hW (exprs hW _ xs _ h) ?_
      intro _ _ xs ys hxs
      rw [TypedExpr.Alike.typesOf_eq hxs]
      refine .bind hW (.ofTy hW _) ?_
      rintro _ hle₁ elem _ rfl
      refine .bind hW (.ofTy hW _) ?_
      rintro _ hle₂ ty _ rfl
      exact .value hW (.array (hxs.imp fun _ _ => .mono (hle₁.trans hle₂)))
  | .index x i, _, .index h hi => by
      unfold Annotate.expr
      refine .bind hW (expr hW naming x _ h) ?_
      intro later _ x y hxy
      rw [hxy.ty_eq]
      split
      · exact .projectFrom hW _ hxy hi
      · refine .bind hW (expr hW later i _ hi) ?_
        intro _ hle₁ i j hij
        rw [hij.ty_eq]
        refine .bind hW (.ofTy hW _) ?_
        rintro _ hle₂ ty _ rfl
        exact .value hW (.index (hxy.mono (hle₁.trans hle₂)) (hij.mono hle₂))
  | .slice a b c, _, .slice ha hb hc => by
      unfold Annotate.expr
      refine .bind hW (expr hW naming a _ ha) ?_
      intro _ _ a a' ha
      refine .bind hW (expr hW _ b _ hb) ?_
      intro _ hle₁ b b' hb
      refine .bind hW (expr hW _ c _ hc) ?_
      intro _ hle₂ c c' hc
      rw [ha.ty_eq, hb.ty_eq, hc.ty_eq]
      exact .value hW (.slice (ha.mono (hle₁.trans hle₂)) (hb.mono hle₂) hc)
  | .attribute x name, _, .attribute h => by
      unfold Annotate.expr
      refine .bind hW (expr hW naming x _ h) ?_
      intro _ _ x y hxy
      rw [hxy.ty_eq]
      refine .bind hW (.fieldType hW _ _) ?_
      rintro _ hle ty _ rfl
      exact .value hW (.attribute (hxy.mono hle))
  | .prim op xs, _, .prim h => by
      unfold Annotate.expr
      refine .bind hW (exprs hW naming xs _ h) ?_
      intro _ _ xs ys hxs
      exact .applyPrim hW op hxs
  | .closure func xs, _, .closure h => by
      unfold Annotate.expr
      refine .requireFunc hW func ?_
      refine .bind hW (exprs hW naming xs _ h) ?_
      intro _ _ xs ys hxs
      rw [TypedExpr.Alike.typesOf_eq hxs]
      exact .value hW (.closure hxs)
  | .invoke f xs, _, .invoke hf h => by
      unfold Annotate.expr
      refine .bind hW (expr hW naming f _ hf) ?_
      intro _ _ f g hfg
      refine .bind hW (.requireCallable hW hfg) ?_
      intro _ _ f g hfg
      refine .bind hW (exprs hW _ xs _ h) ?_
      intro _ hle₁ xs ys hxs
      rw [hfg.ty_eq, TypedExpr.Alike.typesOf_eq hxs]
      refine .bind hW (.invoke hW _ _) ?_
      rintro _ hle₂ ty _ rfl
      exact .value hW (.invoke (hfg.mono (hle₁.trans hle₂)) (hxs.imp fun _ _ => .mono hle₂))
  | .map f xs a, _, .map hf h ha => by
      unfold Annotate.expr
      refine .adverb hW ha (fun later => expr hW later f _ hf) ?_
      intro _ axis f g hfg
      refine .bind hW (exprs hW _ xs _ h) ?_
      intro _ hle xs ys hxs
      exact .applyMap hW axis (hfg.mono hle) hxs
  | .fold kind f xs a (some i) c, _, .fold hf h ha (.some hi) hc => by
      unfold Annotate.expr
      exact .failure hW (.refl _)
  | .fold kind f [x] a none c, _, .fold hf (.cons hx .nil) ha .none hc => by
      unfold Annotate.expr
      refine .adverb hW ha (fun later => expr hW later f _ hf) ?_
      intro _ axis f g hfg
      refine .bind hW (optionalCallee hW _ c _ hc) ?_
      intro _ hle₁ c d hcd
      refine .bind hW (expr hW _ x _ hx) ?_
      intro _ hle₂ x y hxy
      exact .applyFold hW kind axis (hfg.mono (hle₁.trans hle₂))
        (optionRel_imp (fun _ _ => .mono hle₂) hcd) hxy
  | .fold kind f [] a none c, _, .fold hf .nil ha .none hc => by
      unfold Annotate.expr
      exact .failure hW (.refl _)
  | .fold kind f (x :: x' :: xs) a none c, _, .fold hf (.cons hx (.cons hx' h)) ha .none hc => by
      unfold Annotate.expr
      simp only [List.length_cons, h.length_eq]
      exact .failure hW (.refl _)
  | .allPairs f [x, v] a, _, .allPairs hf (.cons hx (.cons hv .nil)) ha => by
      unfold Annotate.expr
      refine .adverb hW ha (fun later => expr hW later f _ hf) ?_
      intro _ axis f g hfg
      refine .bind hW (expr hW _ x _ hx) ?_
      intro _ hle₁ x y hxy
      refine .bind hW (expr hW _ v _ hv) ?_
      intro _ hle₂ v w hvw
      exact .applyAllPairs hW axis (hfg.mono (hle₁.trans hle₂)) (hxy.mono hle₂) hvw
  | .allPairs f [] a, _, .allPairs hf .nil ha => by
      unfold Annotate.expr
      exact .failure hW (.refl _)
  | .allPairs f [x] a, _, .allPairs hf (.cons hx .nil) ha => by
      unfold Annotate.expr
      exact .failure hW (.refl _)
  | .allPairs f (x :: v :: x' :: xs) a, _,
      .allPairs hf (.cons hx (.cons hv (.cons hx' h))) ha => by
      unfold Annotate.expr
      simp only [List.length_cons, h.length_eq]
      exact .failure hW (.refl _)
  termination_by structural x => x

theorem Sim.exprs (hW : W.Respects ctx ctx') (naming : Naming) :
    ∀ xs ys : List Expr, List.Forall₂ (Expr.Alike W.naming W.literal) xs ys →
      W.Sim naming (.list W.typed) (Annotate.exprs ctx xs) (Annotate.exprs ctx' ys)
  | [], _, .nil => .value hW .nil
  | x :: xs, _, .cons hx hxs => by
      unfold Annotate.exprs
      refine .bind hW (expr hW naming x _ hx) ?_
      intro _ _ x y hxy
      refine .bind hW (exprs hW _ xs _ hxs) ?_
      intro _ hle xs ys hxs
      exact .value hW (.cons (hxy.mono hle) hxs)
  termination_by structural xs => xs

theorem Sim.optionalCallee (hW : W.Respects ctx ctx') (naming : Naming) :
    ∀ x y : Option Expr, Option.Rel (Expr.Alike W.naming W.literal) x y →
      W.Sim naming (.option W.typed) (Annotate.optionalCallee ctx x)
        (Annotate.optionalCallee ctx' y)
  | none, _, .none => .value hW .none
  | some x, _, .some hx => by
      unfold Annotate.optionalCallee
      refine .bind hW (expr hW naming x _ hx) ?_
      intro _ _ x y hxy
      refine .bind hW (.requireCallable hW hxy) ?_
      intro _ _ x y hxy
      exact .value hW (.some hxy)
  termination_by structural x => x

end

end Comparison

end RankPoly
