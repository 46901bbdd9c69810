import RankPoly.Proofs.Alike.Basic
import RankPoly.Proofs.Fresh
import RankPoly.Typed.Basic

namespace RankPoly

-- Typed expressions of one shape with the same types, axes and functions,
-- whose variables and literals correspond.
inductive TypedExpr.Alike (naming : Naming) (literal : Const → Const → Prop) :
    TypedExpr → TypedExpr → Prop where
  | var {m n : String} {ty : Ty} : naming m n → Alike naming literal (.var m ty) (.var n ty)
  | const {c d : Const} {ty : Ty} : literal c d → Alike naming literal (.const c ty) (.const d ty)
  | tuple {xs ys : List TypedExpr} {ty : Ty} : List.Forall₂ (Alike naming literal) xs ys →
      Alike naming literal (.tuple xs ty) (.tuple ys ty)
  | array {xs ys : List TypedExpr} {ty : Ty} : List.Forall₂ (Alike naming literal) xs ys →
      Alike naming literal (.array xs ty) (.array ys ty)
  | index {x y i j : TypedExpr} {ty : Ty} : Alike naming literal x y → Alike naming literal i j →
      Alike naming literal (.index x i ty) (.index y j ty)
  | project {x y : TypedExpr} {slot : Nat} {ty : Ty} : Alike naming literal x y →
      Alike naming literal (.project x slot ty) (.project y slot ty)
  | slice {a b c a' b' c' : TypedExpr} {ty : Ty} : Alike naming literal a a' →
      Alike naming literal b b' → Alike naming literal c c' →
      Alike naming literal (.slice a b c ty) (.slice a' b' c' ty)
  | attribute {x y : TypedExpr} {name : String} {ty : Ty} : Alike naming literal x y →
      Alike naming literal (.attribute x name ty) (.attribute y name ty)
  | prim {op : Prim} {xs ys : List TypedExpr} {ty : Ty} :
      List.Forall₂ (Alike naming literal) xs ys →
      Alike naming literal (.prim op xs ty) (.prim op ys ty)
  | closure {func : String} {xs ys : List TypedExpr} {ty : Ty} :
      List.Forall₂ (Alike naming literal) xs ys →
      Alike naming literal (.closure func xs ty) (.closure func ys ty)
  | invoke {f g : TypedExpr} {xs ys : List TypedExpr} {ty : Ty} : Alike naming literal f g →
      List.Forall₂ (Alike naming literal) xs ys →
      Alike naming literal (.invoke f xs ty) (.invoke g ys ty)
  | map {f g : TypedExpr} {xs ys : List TypedExpr} {axis : Option Nat} {ty : Ty} :
      Alike naming literal f g → List.Forall₂ (Alike naming literal) xs ys →
      Alike naming literal (.map f xs axis ty) (.map g ys axis ty)
  | fold {kind : Fold} {f g x y : TypedExpr} {axis : Option Nat} {c d : Option TypedExpr}
      {ty : Ty} : Alike naming literal f g → Alike naming literal x y →
      Option.Rel (Alike naming literal) c d →
      Alike naming literal (.fold kind f x axis c ty) (.fold kind g y axis d ty)
  | allPairs {f g x y v w : TypedExpr} {axis : Option Nat} {ty : Ty} :
      Alike naming literal f g → Alike naming literal x y → Alike naming literal v w →
      Alike naming literal (.allPairs f x v axis ty) (.allPairs g y w axis ty)

namespace TypedExpr.Alike

variable {naming naming₁ naming₂ : Naming} {literal literal₁ literal₂ : Const → Const → Prop}

theorem ty_eq {x y : TypedExpr} (h : Alike naming literal x y) : x.ty = y.ty := by
  cases h <;> rfl

mutual

theorem refl (hliteral : ∀ c, literal c c) : ∀ x : TypedExpr, Alike Eq literal x x
  | .var .. => .var rfl
  | .const c _ => .const (hliteral c)
  | .tuple xs _ => .tuple (reflList hliteral xs)
  | .array xs _ => .array (reflList hliteral xs)
  | .index x i _ => .index (refl hliteral x) (refl hliteral i)
  | .project x .. => .project (refl hliteral x)
  | .slice a b c _ => .slice (refl hliteral a) (refl hliteral b) (refl hliteral c)
  | .attribute x .. => .attribute (refl hliteral x)
  | .prim _ xs _ => .prim (reflList hliteral xs)
  | .closure _ xs _ => .closure (reflList hliteral xs)
  | .invoke f xs _ => .invoke (refl hliteral f) (reflList hliteral xs)
  | .map f xs _ _ => .map (refl hliteral f) (reflList hliteral xs)
  | .fold _ f x _ c _ => .fold (refl hliteral f) (refl hliteral x) (reflOption hliteral c)
  | .allPairs f x v _ _ => .allPairs (refl hliteral f) (refl hliteral x) (refl hliteral v)
  termination_by structural x => x

theorem reflList (hliteral : ∀ c, literal c c) :
    ∀ xs : List TypedExpr, List.Forall₂ (Alike Eq literal) xs xs
  | [] => .nil
  | x :: xs => .cons (refl hliteral x) (reflList hliteral xs)
  termination_by structural xs => xs

theorem reflOption (hliteral : ∀ c, literal c c) :
    ∀ x : Option TypedExpr, Option.Rel (Alike Eq literal) x x
  | none => .none
  | some x => .some (refl hliteral x)
  termination_by structural x => x

end

mutual

-- Two expressions that are alike to a third one are alike to each other.
theorem euclid (hnaming : ∀ ⦃l m n⦄, naming₁ l n → naming₂ m n → naming l m)
    (hliteral : ∀ ⦃b c d⦄, literal₁ b d → literal₂ c d → literal b c) :
    ∀ x y z : TypedExpr, Alike naming₁ literal₁ x z → Alike naming₂ literal₂ y z →
      Alike naming literal x y
  | .var .., _, _, .var h, .var h' => .var (hnaming h h')
  | .const .., _, _, .const h, .const h' => .const (hliteral h h')
  | .tuple xs _, _, _, .tuple h, .tuple h' => .tuple (euclidList hnaming hliteral xs _ _ h h')
  | .array xs _, _, _, .array h, .array h' => .array (euclidList hnaming hliteral xs _ _ h h')
  | .index x i _, _, _, .index hx hi, .index hx' hi' =>
      .index (euclid hnaming hliteral x _ _ hx hx') (euclid hnaming hliteral i _ _ hi hi')
  | .project x .., _, _, .project h, .project h' => .project (euclid hnaming hliteral x _ _ h h')
  | .slice a b c _, _, _, .slice ha hb hc, .slice ha' hb' hc' =>
      .slice (euclid hnaming hliteral a _ _ ha ha') (euclid hnaming hliteral b _ _ hb hb')
        (euclid hnaming hliteral c _ _ hc hc')
  | .attribute x .., _, _, .attribute h, .attribute h' =>
      .attribute (euclid hnaming hliteral x _ _ h h')
  | .prim _ xs _, _, _, .prim h, .prim h' => .prim (euclidList hnaming hliteral xs _ _ h h')
  | .closure _ xs _, _, _, .closure h, .closure h' =>
      .closure (euclidList hnaming hliteral xs _ _ h h')
  | .invoke f xs _, _, _, .invoke hf h, .invoke hf' h' =>
      .invoke (euclid hnaming hliteral f _ _ hf hf') (euclidList hnaming hliteral xs _ _ h h')
  | .map f xs _ _, _, _, .map hf h, .map hf' h' =>
      .map (euclid hnaming hliteral f _ _ hf hf') (euclidList hnaming hliteral xs _ _ h h')
  | .fold _ f x _ c _, _, _, .fold hf hx hc, .fold hf' hx' hc' =>
      .fold (euclid hnaming hliteral f _ _ hf hf') (euclid hnaming hliteral x _ _ hx hx')
        (euclidOption hnaming hliteral c _ _ hc hc')
  | .allPairs f x v _ _, _, _, .allPairs hf hx hv, .allPairs hf' hx' hv' =>
      .allPairs (euclid hnaming hliteral f _ _ hf hf') (euclid hnaming hliteral x _ _ hx hx')
        (euclid hnaming hliteral v _ _ hv hv')
  termination_by structural x => x

theorem euclidList (hnaming : ∀ ⦃l m n⦄, naming₁ l n → naming₂ m n → naming l m)
    (hliteral : ∀ ⦃b c d⦄, literal₁ b d → literal₂ c d → literal b c) : ∀ xs ys zs : List TypedExpr,
    List.Forall₂ (Alike naming₁ literal₁) xs zs → List.Forall₂ (Alike naming₂ literal₂) ys zs →
    List.Forall₂ (Alike naming literal) xs ys
  | [], _, _, .nil, .nil => .nil
  | x :: xs, _, _, .cons h hs, .cons h' hs' =>
      .cons (euclid hnaming hliteral x _ _ h h') (euclidList hnaming hliteral xs _ _ hs hs')
  termination_by structural xs => xs

theorem euclidOption (hnaming : ∀ ⦃l m n⦄, naming₁ l n → naming₂ m n → naming l m)
    (hliteral : ∀ ⦃b c d⦄, literal₁ b d → literal₂ c d → literal b c) : ∀ x y z : Option TypedExpr,
    Option.Rel (Alike naming₁ literal₁) x z → Option.Rel (Alike naming₂ literal₂) y z →
    Option.Rel (Alike naming literal) x y
  | none, _, _, .none, .none => .none
  | some x, _, _, .some h, .some h' => .some (euclid hnaming hliteral x _ _ h h')
  termination_by structural x => x

end

-- More names may correspond than have to.
theorem mono (h : naming ≤ naming₁) {x y : TypedExpr} (hxy : Alike naming literal x y) :
    Alike naming₁ literal x y := by
  have hy : Alike Eq Eq y y := refl (fun _ => rfl) y
  refine euclid ?_ ?_ x y y hxy hy
  · rintro l m n hln rfl
    exact h l m hln
  · rintro b c d hbd rfl
    exact hbd

end TypedExpr.Alike

-- Typed statements that are alike up to names and up to how equal numbers are
-- written.
abbrev TypedStmt.Alike (naming : Naming) (literal : Const → Const → Prop) :
    TypedStmt → TypedStmt → Prop :=
  Stmt.Alike naming (TypedExpr.Alike naming literal)

structure Specialization.Alike (naming : Naming) (literal : Const → Const → Prop)
    (lhs rhs : Specialization) : Prop where
  name : naming lhs.name rhs.name
  source : lhs.source = rhs.source
  params : lhs.params.Alike naming literal rhs.params
  body : List.Forall₂ (TypedStmt.Alike naming literal) lhs.body rhs.body
  inputs : lhs.inputs = rhs.inputs
  returnType : lhs.returnType = rhs.returnType
  env : lhs.env.Alike naming Eq rhs.env

theorem Specialization.Alike.euclid {naming₁ naming₂ : Naming}
    {literal literal₁ literal₂ : Const → Const → Prop}
    (hliteral : ∀ ⦃b c d⦄, literal₁ b d → literal₂ c d → literal b c) {x y z : Specialization}
    (h : x.Alike naming₁ literal₁ z) (h' : y.Alike naming₂ literal₂ z) :
    x.Alike (naming₁.span naming₂) literal y where
  name := ⟨_, h.name, h'.name⟩
  source := h.source.trans h'.source.symm
  params := h.params.euclid hliteral h'.params
  body := Stmt.Alike.euclidBlock (fun _ _ _ hm hn => ⟨_, hm, hn⟩)
    (fun x y z hx hy => hx.euclid (fun _ _ _ hm hn => ⟨_, hm, hn⟩) hliteral x y z hy)
    _ _ _ h.body h'.body
  inputs := h.inputs.trans h'.inputs.symm
  returnType := h.returnType.trans h'.returnType.symm
  env := h.env.euclid (fun _ _ _ hx hy => hx.trans hy.symm) h'.env

-- Literals that denote the same value.
abbrev Const.Same (lhs rhs : Const) : Prop :=
  lhs.same rhs = true

theorem Const.Same.refl (c : Const) : c.Same c := by
  cases c with
  | float value => cases value <;> simp [Const.Same, Const.same, Binary64.same]; split <;> simp_all
  | _ => simp [Const.Same, Const.same]

theorem Binary64.same_iff (x y : Binary64) :
    x.same y = true ↔ x = y ∨ ∃ m n k l, x = .finite m 0 k ∧ y = .finite n 0 l := by
  unfold Binary64.same
  split
  · simp
  · rename_i h
    simp only [decide_eq_true_eq]
    refine ⟨Or.inl, ?_⟩
    rintro (rfl | ⟨m, n, k, l, rfl, rfl⟩)
    · rfl
    · exact absurd rfl (h m k n l rfl)

theorem Binary64.same_euclid {x y z : Binary64} (h : x.same z = true) (h' : y.same z = true) :
    x.same y = true := by
  rw [same_iff] at *
  rcases h with rfl | ⟨m, n, k, l, rfl, rfl⟩
  · rcases h' with rfl | ⟨m', n', k', l', rfl, rfl⟩
    · exact Or.inl rfl
    · exact Or.inr ⟨n', m', l', k', rfl, rfl⟩
  · rcases h' with rfl | ⟨m', n', k', l', rfl, -⟩
    · exact Or.inr ⟨m, n, k, l, rfl, rfl⟩
    · exact Or.inr ⟨m, m', k, k', rfl, rfl⟩

theorem Const.Same.euclid ⦃b c d : Const⦄ (h : b.Same d) (h' : c.Same d) : b.Same c := by
  cases d with
  | float value =>
      cases b <;> cases c <;> simp_all [Const.Same, Const.same]
      exact Binary64.same_euclid h h'
  | _ => cases b <;> cases c <;> simp_all [Const.Same, Const.same]

-- Specializations that differ in the names drawn for them and nowhere else.
def Specialization.Renamed (lhs rhs : Specialization) : Prop :=
  ∃ naming : Naming, Relator.BiUnique naming ∧
    (∀ m n, naming m n → Fresh.Generated m ∧ Fresh.Generated n) ∧
    lhs.Alike naming Const.Same rhs

theorem Specialization.Renamed.euclid {x y z : Specialization} (h : x.Renamed z)
    (h' : y.Renamed z) : x.Renamed y := by
  obtain ⟨naming₁, hunique₁, hdrawn₁, halike₁⟩ := h
  obtain ⟨naming₂, hunique₂, hdrawn₂, halike₂⟩ := h'
  refine ⟨naming₁.span naming₂, Naming.span_biUnique hunique₁ hunique₂, ?_,
    halike₁.euclid Const.Same.euclid halike₂⟩
  rintro m n ⟨l, hm, hn⟩
  exact ⟨(hdrawn₁ m l hm).1, (hdrawn₂ n l hn).1⟩

end RankPoly
