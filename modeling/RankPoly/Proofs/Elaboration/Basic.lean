import RankPoly.Annotate.Apply
import RankPoly.Proofs.Alike.Basic

namespace RankPoly

namespace Annotate

-- The axis that an operand of an adverb denotes: none, or a literal that is not
-- negative. Nothing else may be given.
def givenAxis : Option Expr → Option (Option Nat)
  | none | some (.const .none) => some none
  | some (.const (.int axis)) => if 0 ≤ axis then some (some axis.toNat) else none
  | some _ => none

-- The axis that an adverb records. Vectors have only one to go along.
def recordedAxis (given : Option Nat) (rank : Nat) : Option Nat :=
  match given with
  | some axis => some axis
  | none => if rank = 1 then some 0 else none

end Annotate

open Annotate (typesOf givenAxis recordedAxis)

-- How a typed expression comes from its source, part by part, where `naming`
-- has the locals of variables. A rule is asked of every node.
inductive Expr.Elaborates (rule : Expr → TypedExpr → Prop) (naming : Naming) :
    Expr → TypedExpr → Prop where
  | var {name known : String} {ty : Ty} : naming name known →
      rule (.var name) (.var known ty) → Elaborates rule naming (.var name) (.var known ty)
  | const {value : Const} {ty : Ty} : rule (.const value) (.const value ty) →
      Elaborates rule naming (.const value) (.const value ty)
  | tuple {es : List Expr} {ts : List TypedExpr} {ty : Ty} :
      List.Forall₂ (Elaborates rule naming) es ts → rule (.tuple es) (.tuple ts ty) →
      Elaborates rule naming (.tuple es) (.tuple ts ty)
  | array {es : List Expr} {ts : List TypedExpr} {ty : Ty} :
      List.Forall₂ (Elaborates rule naming) es ts → rule (.array es) (.array ts ty) →
      Elaborates rule naming (.array es) (.array ts ty)
  | index {e i : Expr} {t j : TypedExpr} {ty : Ty} : Elaborates rule naming e t →
      Elaborates rule naming i j → (∀ elems, t.ty ≠ .tuple elems) →
      rule (.index e i) (.index t j ty) → Elaborates rule naming (.index e i) (.index t j ty)
  -- A tuple is indexed by a literal, which counts from the end if it is negative.
  | project {e : Expr} {t : TypedExpr} {index : Int} {slot : Nat} {elems : List Ty} {ty : Ty} :
      Elaborates rule naming e t → t.ty = .tuple elems → slot < elems.length →
      (slot : Int) = (if index < 0 then index + elems.length else index) →
      rule (.index e (.const (.int index))) (.project t slot ty) →
      Elaborates rule naming (.index e (.const (.int index))) (.project t slot ty)
  | slice {a b c : Expr} {a' b' c' : TypedExpr} {ty : Ty} : Elaborates rule naming a a' →
      Elaborates rule naming b b' → Elaborates rule naming c c' →
      rule (.slice a b c) (.slice a' b' c' ty) →
      Elaborates rule naming (.slice a b c) (.slice a' b' c' ty)
  | attribute {e : Expr} {t : TypedExpr} {name : String} {ty : Ty} : Elaborates rule naming e t →
      rule (.attribute e name) (.attribute t name ty) →
      Elaborates rule naming (.attribute e name) (.attribute t name ty)
  | prim {op : Prim} {es : List Expr} {ts : List TypedExpr} {ty : Ty} :
      List.Forall₂ (Elaborates rule naming) es ts → (∀ ty ∈ typesOf ts, ty.isScalar = true) →
      rule (.prim op es) (.prim op ts ty) → Elaborates rule naming (.prim op es) (.prim op ts ty)
  -- With an array among the operands the operator's wrapper is mapped over them.
  | lift {op : Prim} {es : List Expr} {ts : List TypedExpr} {callee ty : Ty} :
      List.Forall₂ (Elaborates rule naming) es ts → (∃ ty ∈ typesOf ts, ty.isArray = true) →
      rule (.closure (Session.wrapperName op) []) (.closure (Session.wrapperName op) [] callee) →
      rule (.prim op es) (.map (.closure (Session.wrapperName op) [] callee) ts none ty) →
      Elaborates rule naming (.prim op es)
        (.map (.closure (Session.wrapperName op) [] callee) ts none ty)
  | closure {func : String} {es : List Expr} {ts : List TypedExpr} {ty : Ty} :
      List.Forall₂ (Elaborates rule naming) es ts → rule (.closure func es) (.closure func ts ty) →
      Elaborates rule naming (.closure func es) (.closure func ts ty)
  | invoke {f : Expr} {g : TypedExpr} {es : List Expr} {ts : List TypedExpr} {ty : Ty} :
      Elaborates rule naming f g → List.Forall₂ (Elaborates rule naming) es ts →
      rule (.invoke f es) (.invoke g ts ty) → Elaborates rule naming (.invoke f es) (.invoke g ts ty)
  | map {f : Expr} {g : TypedExpr} {es : List Expr} {ts : List TypedExpr} {operand : Option Expr}
      {axis : Option Nat} {ty : Ty} : Elaborates rule naming f g →
      List.Forall₂ (Elaborates rule naming) es ts → givenAxis operand = some axis →
      rule (.map f es operand) (.map g ts (recordedAxis axis (Ty.maxRank (typesOf ts))) ty) →
      Elaborates rule naming (.map f es operand)
        (.map g ts (recordedAxis axis (Ty.maxRank (typesOf ts))) ty)
  | fold {kind : Fold} {f e : Expr} {g t : TypedExpr} {operand combiner : Option Expr}
      {axis : Option Nat} {combiner' : Option TypedExpr} {ty : Ty} : Elaborates rule naming f g →
      Elaborates rule naming e t → Option.Rel (Elaborates rule naming) combiner combiner' →
      givenAxis operand = some axis →
      rule (.fold kind f [e] operand none combiner)
        (.fold kind g t (recordedAxis axis t.ty.rank) combiner' ty) →
      Elaborates rule naming (.fold kind f [e] operand none combiner)
        (.fold kind g t (recordedAxis axis t.ty.rank) combiner' ty)
  | allPairs {f a b : Expr} {g a' b' : TypedExpr} {operand : Option Expr} {axis : Option Nat}
      {ty : Ty} : Elaborates rule naming f g → Elaborates rule naming a a' →
      Elaborates rule naming b b' → givenAxis operand = some axis →
      rule (.allPairs f [a, b] operand)
        (.allPairs g a' b' (recordedAxis axis (Ty.maxRank [a'.ty, b'.ty])) ty) →
      Elaborates rule naming (.allPairs f [a, b] operand)
        (.allPairs g a' b' (recordedAxis axis (Ty.maxRank [a'.ty, b'.ty])) ty)

namespace Expr.Elaborates

variable {rule rule' : Expr → TypedExpr → Prop} {naming naming' : Naming}

-- The rule is asked of the expression as a whole.
theorem root {e : Expr} {t : TypedExpr} (h : e.Elaborates rule naming t) : rule e t := by
  cases h <;> assumption

mutual

-- A rule that follows from how an expression elaborates may be asked as well, and
-- more variables may have locals.
theorem strengthen (hrule : ∀ ⦃e t⦄, e.Elaborates rule naming t → rule' e t)
    (hnaming : naming ≤ naming') :
    ∀ (e : Expr) (t : TypedExpr), e.Elaborates rule naming t → e.Elaborates rule' naming' t
  | .var _, _, .var hname h => .var (hnaming _ _ hname) (hrule (.var hname h))
  | .const _, _, .const h => .const (hrule (.const h))
  | .tuple es, _, .tuple hes h =>
      .tuple (strengthenList hrule hnaming es _ hes) (hrule (.tuple hes h))
  | .array es, _, .array hes h =>
      .array (strengthenList hrule hnaming es _ hes) (hrule (.array hes h))
  | .index e i, _, .index he hi hty h =>
      .index (strengthen hrule hnaming e _ he) (strengthen hrule hnaming i _ hi) hty
        (hrule (.index he hi hty h))
  | .index e _, _, .project he hty hlt hslot h =>
      .project (strengthen hrule hnaming e _ he) hty hlt hslot
        (hrule (.project he hty hlt hslot h))
  | .slice a b c, _, .slice ha hb hc h =>
      .slice (strengthen hrule hnaming a _ ha) (strengthen hrule hnaming b _ hb)
        (strengthen hrule hnaming c _ hc) (hrule (.slice ha hb hc h))
  | .attribute e _, _, .attribute he h =>
      .attribute (strengthen hrule hnaming e _ he) (hrule (.attribute he h))
  | .prim _ es, _, .prim hes hty h =>
      .prim (strengthenList hrule hnaming es _ hes) hty (hrule (.prim hes hty h))
  | .prim _ es, _, .lift hes hty hcallee h =>
      .lift (strengthenList hrule hnaming es _ hes) hty (hrule (.closure .nil hcallee))
        (hrule (.lift hes hty hcallee h))
  | .closure _ es, _, .closure hes h =>
      .closure (strengthenList hrule hnaming es _ hes) (hrule (.closure hes h))
  | .invoke f es, _, .invoke hf hes h =>
      .invoke (strengthen hrule hnaming f _ hf) (strengthenList hrule hnaming es _ hes)
        (hrule (.invoke hf hes h))
  | .map f es _, _, .map hf hes haxis h =>
      .map (strengthen hrule hnaming f _ hf) (strengthenList hrule hnaming es _ hes) haxis
        (hrule (.map hf hes haxis h))
  | .fold _ f [e] _ none c, _, .fold hf he hc haxis h =>
      .fold (strengthen hrule hnaming f _ hf) (strengthen hrule hnaming e _ he)
        (strengthenOption hrule hnaming c _ hc) haxis (hrule (.fold hf he hc haxis h))
  | .allPairs f [a, b] _, _, .allPairs hf ha hb haxis h =>
      .allPairs (strengthen hrule hnaming f _ hf) (strengthen hrule hnaming a _ ha)
        (strengthen hrule hnaming b _ hb) haxis (hrule (.allPairs hf ha hb haxis h))
  termination_by structural e => e

theorem strengthenList (hrule : ∀ ⦃e t⦄, e.Elaborates rule naming t → rule' e t)
    (hnaming : naming ≤ naming') :
    ∀ (es : List Expr) (ts : List TypedExpr), List.Forall₂ (Elaborates rule naming) es ts →
      List.Forall₂ (Elaborates rule' naming') es ts
  | [], _, .nil => .nil
  | e :: es, _, .cons he hes =>
      .cons (strengthen hrule hnaming e _ he) (strengthenList hrule hnaming es _ hes)
  termination_by structural es => es

theorem strengthenOption (hrule : ∀ ⦃e t⦄, e.Elaborates rule naming t → rule' e t)
    (hnaming : naming ≤ naming') :
    ∀ (e : Option Expr) (t : Option TypedExpr), Option.Rel (Elaborates rule naming) e t →
      Option.Rel (Elaborates rule' naming') e t
  | none, _, .none => .none
  | some e, _, .some he => .some (strengthen hrule hnaming e _ he)
  termination_by structural e => e

end

section Weaker

variable (hrule : ∀ ⦃e t⦄, rule e t → rule' e t) (hnaming : naming ≤ naming')
include hrule hnaming

-- A weaker rule may be asked.
theorem imp (e : Expr) (t : TypedExpr) (h : e.Elaborates rule naming t) :
    e.Elaborates rule' naming' t :=
  strengthen (fun _ _ he => hrule he.root) hnaming e t h

theorem impList (es : List Expr) (ts : List TypedExpr)
    (h : List.Forall₂ (Elaborates rule naming) es ts) :
    List.Forall₂ (Elaborates rule' naming') es ts :=
  strengthenList (fun _ _ he => hrule he.root) hnaming es ts h

theorem impOption (e : Option Expr) (t : Option TypedExpr)
    (h : Option.Rel (Elaborates rule naming) e t) :
    Option.Rel (Elaborates rule' naming') e t :=
  strengthenOption (fun _ _ he => hrule he.root) hnaming e t h

end Weaker

end Expr.Elaborates

-- Statements that elaborate one by one, with all their expressions and merges.
abbrev Stmt.Elaborates (rule : Expr → TypedExpr → Prop) (naming : Naming) :
    Stmt Expr → TypedStmt → Prop :=
  Stmt.Alike naming (Expr.Elaborates rule naming)

end RankPoly
