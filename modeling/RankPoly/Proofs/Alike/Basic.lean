import RankPoly.Const
import RankPoly.Func.Params
import RankPoly.Proofs.NameMap
import RankPoly.Stmt.Basic
import Mathlib.Data.List.Forall2
import Mathlib.Logic.Relator
import Mathlib.Order.Lattice

namespace RankPoly

variable {ε δ ζ : Type}

-- Which name of one side stands for which name of the other.
abbrev Naming := String → String → Prop

structure Merge.Alike (naming : Naming) (alike : ε → δ → Prop) (lhs : Merge ε) (rhs : Merge δ) :
    Prop where
  var : naming lhs.var rhs.var
  left : alike lhs.left rhs.left
  right : alike lhs.right rhs.right

-- Statements of one shape whose names and expressions correspond.
inductive Stmt.Alike (naming : Naming) (alike : ε → δ → Prop) : Stmt ε → Stmt δ → Prop where
  | assign {x v : ε} {y w : δ} : alike x y → alike v w →
      Alike naming alike (.assign x v) (.assign y w)
  | branch {c : ε} {d : δ} {xs xs' : List (Stmt ε)} {ys ys' : List (Stmt δ)}
      {ms : List (Merge ε)} {ns : List (Merge δ)} : alike c d →
      List.Forall₂ (Alike naming alike) xs ys → List.Forall₂ (Alike naming alike) xs' ys' →
      List.Forall₂ (Merge.Alike naming alike) ms ns →
      Alike naming alike (.branch c xs xs' ms) (.branch d ys ys' ns)
  | loop {c : ε} {d : δ} {xs : List (Stmt ε)} {ys : List (Stmt δ)} {ms : List (Merge ε)}
      {ns : List (Merge δ)} : alike c d →
      List.Forall₂ (Alike naming alike) xs ys → List.Forall₂ (Merge.Alike naming alike) ms ns →
      Alike naming alike (.loop c xs ms) (.loop d ys ns)
  | ret {v : ε} {w : δ} : alike v w → Alike naming alike (.ret v) (.ret w)

-- Maps that agree under corresponding names and bind no other names.
structure NameMap.Alike {α : Type} (naming : Naming) (alike : α → α → Prop)
    (lhs rhs : NameMap α) : Prop where
  lookup : ∀ {m n}, naming m n → Option.Rel alike (lhs.find? m) (rhs.find? n)
  left : ∀ {m}, m ∈ lhs.keys → ∃ n, naming m n
  right : ∀ {n}, n ∈ rhs.keys → ∃ m, naming m n

structure Params.Alike (naming : Naming) (literal : Const → Const → Prop)
    (lhs rhs : Params) : Prop where
  positional : List.Forall₂ naming lhs.positional rhs.positional
  defaults : NameMap.Alike naming literal lhs.defaults rhs.defaults
  varargs : Option.Rel naming lhs.varargs rhs.varargs

section Relations

variable {α β γ : Type} {rel rel' : α → β → Prop} {rel₁ : α → γ → Prop} {rel₂ : β → γ → Prop}

theorem forall₂_euclid (hrel : ∀ ⦃x y z⦄, rel₁ x z → rel₂ y z → rel x y) {xs : List α}
    {ys : List β} {zs : List γ} (h : List.Forall₂ rel₁ xs zs) (h' : List.Forall₂ rel₂ ys zs) :
    List.Forall₂ rel xs ys := by
  induction h generalizing ys with
  | nil =>
      cases h'
      exact .nil
  | cons hx _ ih =>
      cases h' with
      | cons hy hys => exact .cons (hrel hx hy) (ih hys)

theorem optionRel_euclid (hrel : ∀ ⦃x y z⦄, rel₁ x z → rel₂ y z → rel x y) {x : Option α}
    {y : Option β} {z : Option γ} (h : Option.Rel rel₁ x z) (h' : Option.Rel rel₂ y z) :
    Option.Rel rel x y := by
  cases h with
  | none =>
      cases h'
      exact .none
  | some hx =>
      cases h' with
      | some hy => exact .some (hrel hx hy)

theorem optionRel_imp (hrel : ∀ ⦃x y⦄, rel x y → rel' x y) {x : Option α} {y : Option β}
    (h : Option.Rel rel x y) : Option.Rel rel' x y := by
  cases h with
  | none => exact .none
  | some hx => exact .some (hrel hx)

theorem optionRel_eq_iff {x y : Option α} : Option.Rel Eq x y ↔ x = y := by
  constructor
  · rintro (rfl | -) <;> rfl
  · rintro rfl
    cases x <;> constructor
    rfl

end Relations

section Euclid

variable {naming naming₁ naming₂ : Naming} {alike alike' : ε → δ → Prop} {alike₁ : ε → ζ → Prop}
  {alike₂ : δ → ζ → Prop} {literal literal₁ literal₂ : Const → Const → Prop}

theorem Merge.Alike.euclid (hnaming : ∀ ⦃l m n⦄, naming₁ l n → naming₂ m n → naming l m)
    (halike : ∀ ⦃x y z⦄, alike₁ x z → alike₂ y z → alike x y) {x : Merge ε} {y : Merge δ}
    {z : Merge ζ} (h : x.Alike naming₁ alike₁ z) (h' : y.Alike naming₂ alike₂ z) :
    x.Alike naming alike y :=
  ⟨hnaming h.var h'.var, halike h.left h'.left, halike h.right h'.right⟩

theorem Merge.Alike.euclidList (hnaming : ∀ ⦃l m n⦄, naming₁ l n → naming₂ m n → naming l m)
    (halike : ∀ ⦃x y z⦄, alike₁ x z → alike₂ y z → alike x y) {xs : List (Merge ε)}
    {ys : List (Merge δ)} {zs : List (Merge ζ)}
    (h : List.Forall₂ (Merge.Alike naming₁ alike₁) xs zs)
    (h' : List.Forall₂ (Merge.Alike naming₂ alike₂) ys zs) :
    List.Forall₂ (Merge.Alike naming alike) xs ys := by
  refine forall₂_euclid ?_ h h'
  exact fun _ _ _ h h' => h.euclid hnaming halike h'

mutual

-- Two statements that are alike to a third one are alike to each other.
theorem Stmt.Alike.euclid (hnaming : ∀ ⦃l m n⦄, naming₁ l n → naming₂ m n → naming l m)
    (halike : ∀ ⦃x y z⦄, alike₁ x z → alike₂ y z → alike x y) :
    ∀ (x : Stmt ε) (y : Stmt δ) (z : Stmt ζ), Stmt.Alike naming₁ alike₁ x z →
      Stmt.Alike naming₂ alike₂ y z →
      Stmt.Alike naming alike x y
  | .assign .., _, _, .assign hx hv, .assign hx' hv' => .assign (halike hx hx') (halike hv hv')
  | .branch _ xs xs' _, _, _, .branch hc h h' hm, .branch hc' g g' hm' =>
      .branch (halike hc hc') (Stmt.Alike.euclidBlock hnaming halike xs _ _ h g)
        (Stmt.Alike.euclidBlock hnaming halike xs' _ _ h' g')
        (Merge.Alike.euclidList hnaming halike hm hm')
  | .loop _ xs _, _, _, .loop hc h hm, .loop hc' g hm' =>
      .loop (halike hc hc') (Stmt.Alike.euclidBlock hnaming halike xs _ _ h g)
        (Merge.Alike.euclidList hnaming halike hm hm')
  | .ret _, _, _, .ret h, .ret h' => .ret (halike h h')
  termination_by structural x => x

theorem Stmt.Alike.euclidBlock (hnaming : ∀ ⦃l m n⦄, naming₁ l n → naming₂ m n → naming l m)
    (halike : ∀ ⦃x y z⦄, alike₁ x z → alike₂ y z → alike x y) :
    ∀ (xs : List (Stmt ε)) (ys : List (Stmt δ)) (zs : List (Stmt ζ)),
      List.Forall₂ (Stmt.Alike naming₁ alike₁) xs zs →
      List.Forall₂ (Stmt.Alike naming₂ alike₂) ys zs →
      List.Forall₂ (Stmt.Alike naming alike) xs ys
  | [], _, _, .nil, .nil => .nil
  | x :: xs, _, _, .cons h hs, .cons h' hs' =>
      .cons (Stmt.Alike.euclid hnaming halike x _ _ h h')
        (Stmt.Alike.euclidBlock hnaming halike xs _ _ hs hs')
  termination_by structural xs => xs

end

theorem Merge.Alike.refl {same : ε → ε → Prop} (halike : ∀ x, same x x) (x : Merge ε) :
    x.Alike Eq same x :=
  ⟨rfl, halike _, halike _⟩

mutual

theorem Stmt.Alike.refl {same : ε → ε → Prop} (halike : ∀ x, same x x) :
    ∀ x : Stmt ε, Stmt.Alike Eq same x x
  | .assign x v => .assign (halike x) (halike v)
  | .branch c xs xs' _ =>
      .branch (halike c) (Stmt.Alike.reflBlock halike xs) (Stmt.Alike.reflBlock halike xs')
        (List.forall₂_same.mpr fun _ _ => Merge.Alike.refl halike _)
  | .loop c xs _ =>
      .loop (halike c) (Stmt.Alike.reflBlock halike xs)
        (List.forall₂_same.mpr fun _ _ => Merge.Alike.refl halike _)
  | .ret v => .ret (halike v)
  termination_by structural x => x

theorem Stmt.Alike.reflBlock {same : ε → ε → Prop} (halike : ∀ x, same x x) :
    ∀ xs : List (Stmt ε), List.Forall₂ (Stmt.Alike Eq same) xs xs
  | [] => .nil
  | x :: xs => .cons (Stmt.Alike.refl halike x) (Stmt.Alike.reflBlock halike xs)
  termination_by structural xs => xs

end

-- More names and expressions may correspond than have to.
theorem Merge.Alike.imp {x : Merge ε} {y : Merge δ} (h : x.Alike naming alike y)
    (hnaming : naming ≤ naming₁) (halike : ∀ ⦃x y⦄, alike x y → alike' x y) :
    x.Alike naming₁ alike' y :=
  ⟨hnaming _ _ h.var, halike h.left, halike h.right⟩

theorem Stmt.Alike.imp {x : Stmt ε} {y : Stmt δ} (h : x.Alike naming alike y)
    (hnaming : naming ≤ naming₁) (halike : ∀ ⦃x y⦄, alike x y → alike' x y) :
    x.Alike naming₁ alike' y := by
  have hy : y.Alike Eq Eq y := Stmt.Alike.refl (fun _ => rfl) y
  refine Stmt.Alike.euclid ?_ ?_ x y y h hy
  · rintro l m n hln rfl
    exact hnaming l m hln
  · rintro x y z hxz rfl
    exact halike hxz

-- What names correspond when both correspond to names of a third side.
def Naming.span (naming₁ naming₂ : Naming) : Naming :=
  fun m n => ∃ l, naming₁ m l ∧ naming₂ n l

theorem Naming.span_biUnique (h₁ : Relator.BiUnique naming₁) (h₂ : Relator.BiUnique naming₂) :
    Relator.BiUnique (naming₁.span naming₂) := by
  refine ⟨?_, ?_⟩
  · rintro m m' n ⟨l, hm, hn⟩ ⟨l', hm', hn'⟩
    cases h₂.2 hn hn'
    exact h₁.1 hm hm'
  · rintro m n n' ⟨l, hm, hn⟩ ⟨l', hm', hn'⟩
    cases h₁.2 hm hm'
    exact h₂.1 hn hn'

theorem NameMap.Alike.euclid {α : Type} {rel rel₁ rel₂ : α → α → Prop}
    (hrel : ∀ ⦃x y z⦄, rel₁ x z → rel₂ y z → rel x y) {x y z : NameMap α}
    (h : x.Alike naming₁ rel₁ z) (h' : y.Alike naming₂ rel₂ z) :
    x.Alike (naming₁.span naming₂) rel y where
  lookup := by
    rintro m n ⟨l, hm, hn⟩
    exact optionRel_euclid hrel (h.lookup hm) (h'.lookup hn)
  left := by
    intro m hm
    obtain ⟨l, hl⟩ := h.left hm
    obtain ⟨value, hvalue⟩ := mem_keys_iff.mp hm
    have hrel := h.lookup hl
    rw [hvalue] at hrel
    cases hfound : z.find? l with
    | none =>
        rw [hfound] at hrel
        cases hrel
    | some value' =>
        obtain ⟨n, hn⟩ := h'.right (mem_keys_iff.mpr ⟨value', hfound⟩)
        exact ⟨n, l, hl, hn⟩
  right := by
    intro n hn
    obtain ⟨l, hl⟩ := h'.left hn
    obtain ⟨value, hvalue⟩ := mem_keys_iff.mp hn
    have hrel := h'.lookup hl
    rw [hvalue] at hrel
    cases hfound : z.find? l with
    | none =>
        rw [hfound] at hrel
        cases hrel
    | some value' =>
        obtain ⟨m, hm⟩ := h.right (mem_keys_iff.mpr ⟨value', hfound⟩)
        exact ⟨m, l, hm, hl⟩

theorem Params.Alike.euclid (hliteral : ∀ ⦃b c d⦄, literal₁ b d → literal₂ c d → literal b c)
    {x y z : Params} (h : x.Alike naming₁ literal₁ z) (h' : y.Alike naming₂ literal₂ z) :
    x.Alike (naming₁.span naming₂) literal y :=
  ⟨forall₂_euclid (fun _ _ _ hm hn => ⟨_, hm, hn⟩) h.positional h'.positional,
    h.defaults.euclid hliteral h'.defaults,
    optionRel_euclid (fun _ _ _ hm hn => ⟨_, hm, hn⟩) h.varargs h'.varargs⟩

end Euclid

end RankPoly
