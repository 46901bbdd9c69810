import RankPoly.Proofs.Alike.Typed
import RankPoly.Session.Error

namespace RankPoly

-- Source expressions of one shape whose variables and literals correspond.
inductive Expr.Alike (naming : Naming) (literal : Const → Const → Prop) : Expr → Expr → Prop where
  | var {m n : String} : naming m n → Alike naming literal (.var m) (.var n)
  | const {c d : Const} : literal c d → Alike naming literal (.const c) (.const d)
  | tuple {xs ys : List Expr} : List.Forall₂ (Alike naming literal) xs ys →
      Alike naming literal (.tuple xs) (.tuple ys)
  | array {xs ys : List Expr} : List.Forall₂ (Alike naming literal) xs ys →
      Alike naming literal (.array xs) (.array ys)
  | index {x y i j : Expr} : Alike naming literal x y → Alike naming literal i j →
      Alike naming literal (.index x i) (.index y j)
  | slice {a b c a' b' c' : Expr} : Alike naming literal a a' → Alike naming literal b b' →
      Alike naming literal c c' → Alike naming literal (.slice a b c) (.slice a' b' c')
  | attribute {x y : Expr} {name : String} : Alike naming literal x y →
      Alike naming literal (.attribute x name) (.attribute y name)
  | prim {op : Prim} {xs ys : List Expr} : List.Forall₂ (Alike naming literal) xs ys →
      Alike naming literal (.prim op xs) (.prim op ys)
  | closure {func : String} {xs ys : List Expr} : List.Forall₂ (Alike naming literal) xs ys →
      Alike naming literal (.closure func xs) (.closure func ys)
  | invoke {f g : Expr} {xs ys : List Expr} : Alike naming literal f g →
      List.Forall₂ (Alike naming literal) xs ys → Alike naming literal (.invoke f xs) (.invoke g ys)
  | map {f g : Expr} {xs ys : List Expr} {a b : Option Expr} : Alike naming literal f g →
      List.Forall₂ (Alike naming literal) xs ys → Option.Rel (Alike naming literal) a b →
      Alike naming literal (.map f xs a) (.map g ys b)
  | fold {kind : Fold} {f g : Expr} {xs ys : List Expr} {a b i j c d : Option Expr} :
      Alike naming literal f g → List.Forall₂ (Alike naming literal) xs ys →
      Option.Rel (Alike naming literal) a b → Option.Rel (Alike naming literal) i j →
      Option.Rel (Alike naming literal) c d →
      Alike naming literal (.fold kind f xs a i c) (.fold kind g ys b j d)
  | allPairs {f g : Expr} {xs ys : List Expr} {a b : Option Expr} : Alike naming literal f g →
      List.Forall₂ (Alike naming literal) xs ys → Option.Rel (Alike naming literal) a b →
      Alike naming literal (.allPairs f xs a) (.allPairs g ys b)

namespace Expr

mutual

theorem alike_of_same : ∀ x y : Expr, x.same y = true → Alike Eq Const.Same x y
  | .var m, y => by
      cases y <;> simp only [same, decide_eq_true_eq, Bool.false_eq_true, false_implies]
      exact .var
  | .const c, y => by
      cases y <;> simp only [same, Bool.false_eq_true, false_implies]
      exact fun h => .const h
  | .tuple xs, y => by
      cases y <;> simp only [same, Bool.false_eq_true, false_implies]
      exact fun h => .tuple (alikeList_of_same xs _ h)
  | .array xs, y => by
      cases y <;> simp only [same, Bool.false_eq_true, false_implies]
      exact fun h => .array (alikeList_of_same xs _ h)
  | .index x i, y => by
      cases y <;> simp only [same, Bool.and_eq_true, Bool.false_eq_true, false_implies]
      rintro ⟨hx, hi⟩
      exact .index (alike_of_same x _ hx) (alike_of_same i _ hi)
  | .slice a b c, y => by
      cases y <;> simp only [same, Bool.and_eq_true, Bool.false_eq_true, false_implies]
      rintro ⟨⟨ha, hb⟩, hc⟩
      exact .slice (alike_of_same a _ ha) (alike_of_same b _ hb) (alike_of_same c _ hc)
  | .attribute x name, y => by
      cases y <;> simp only [same, Bool.and_eq_true, decide_eq_true_eq, Bool.false_eq_true,
        false_implies]
      rintro ⟨hx, rfl⟩
      exact .attribute (alike_of_same x _ hx)
  | .prim op xs, y => by
      cases y <;> simp only [same, Bool.and_eq_true, decide_eq_true_eq, Bool.false_eq_true,
        false_implies]
      rintro ⟨rfl, h⟩
      exact .prim (alikeList_of_same xs _ h)
  | .closure func xs, y => by
      cases y <;> simp only [same, Bool.and_eq_true, decide_eq_true_eq, Bool.false_eq_true,
        false_implies]
      rintro ⟨rfl, h⟩
      exact .closure (alikeList_of_same xs _ h)
  | .invoke f xs, y => by
      cases y <;> simp only [same, Bool.and_eq_true, Bool.false_eq_true, false_implies]
      rintro ⟨hf, h⟩
      exact .invoke (alike_of_same f _ hf) (alikeList_of_same xs _ h)
  | .map f xs a, y => by
      cases y <;> simp only [same, Bool.and_eq_true, Bool.false_eq_true, false_implies]
      rintro ⟨⟨hf, h⟩, ha⟩
      exact .map (alike_of_same f _ hf) (alikeList_of_same xs _ h) (alikeOption_of_same a _ ha)
  | .fold kind f xs a i c, y => by
      cases y <;> simp only [same, Bool.and_eq_true, decide_eq_true_eq, Bool.false_eq_true,
        false_implies]
      rintro ⟨⟨⟨⟨⟨rfl, hf⟩, h⟩, ha⟩, hi⟩, hc⟩
      exact .fold (alike_of_same f _ hf) (alikeList_of_same xs _ h) (alikeOption_of_same a _ ha)
        (alikeOption_of_same i _ hi) (alikeOption_of_same c _ hc)
  | .allPairs f xs a, y => by
      cases y <;> simp only [same, Bool.and_eq_true, Bool.false_eq_true, false_implies]
      rintro ⟨⟨hf, h⟩, ha⟩
      exact .allPairs (alike_of_same f _ hf) (alikeList_of_same xs _ h)
        (alikeOption_of_same a _ ha)
  termination_by structural x => x

theorem alikeList_of_same :
    ∀ xs ys : List Expr, sameList xs ys = true → List.Forall₂ (Alike Eq Const.Same) xs ys
  | [], [], _ => .nil
  | x :: xs, y :: ys, h => by
      simp only [sameList, Bool.and_eq_true] at h
      exact .cons (alike_of_same x y h.1) (alikeList_of_same xs ys h.2)
  termination_by structural xs => xs

theorem alikeOption_of_same :
    ∀ x y : Option Expr, sameOption x y = true → Option.Rel (Alike Eq Const.Same) x y
  | none, none, _ => .none
  | some x, some y, h => .some (alike_of_same x y h)
  termination_by structural x => x

end

mutual

theorem same_self : ∀ x : Expr, x.same x = true
  | .var _ => by simp only [same, decide_true]
  | .const c => by
      unfold same
      exact Const.Same.refl c
  | .tuple xs | .array xs => by
      unfold same
      exact sameList_self xs
  | .index x i => by simp only [same, same_self x, same_self i, Bool.and_self]
  | .slice a b c => by simp only [same, same_self a, same_self b, same_self c, Bool.and_self]
  | .attribute x _ => by simp only [same, same_self x, decide_true, Bool.and_self]
  | .prim _ xs | .closure _ xs => by simp only [same, sameList_self xs, decide_true, Bool.and_self]
  | .invoke f xs => by simp only [same, same_self f, sameList_self xs, Bool.and_self]
  | .map f xs a | .allPairs f xs a => by
      simp only [same, same_self f, sameList_self xs, sameOption_self a, Bool.and_self]
  | .fold _ f xs a i c => by
      simp only [same, same_self f, sameList_self xs, sameOption_self a, sameOption_self i,
        sameOption_self c, decide_true, Bool.and_self]
  termination_by structural x => x

theorem sameList_self : ∀ xs : List Expr, sameList xs xs = true
  | [] => rfl
  | x :: xs => by simp only [sameList, same_self x, sameList_self xs, Bool.and_self]
  termination_by structural xs => xs

theorem sameOption_self : ∀ x : Option Expr, sameOption x x = true
  | none => rfl
  | some x => by simp only [sameOption, same_self x]
  termination_by structural x => x

end

variable {naming naming₁ naming₂ : Naming} {literal literal₁ literal₂ : Const → Const → Prop}

namespace Alike

mutual

theorem refl (hliteral : ∀ c, literal c c) : ∀ x : Expr, Alike Eq literal x x
  | .var _ => .var rfl
  | .const c => .const (hliteral c)
  | .tuple xs => .tuple (reflList hliteral xs)
  | .array xs => .array (reflList hliteral xs)
  | .index x i => .index (refl hliteral x) (refl hliteral i)
  | .slice a b c => .slice (refl hliteral a) (refl hliteral b) (refl hliteral c)
  | .attribute x _ => .attribute (refl hliteral x)
  | .prim _ xs => .prim (reflList hliteral xs)
  | .closure _ xs => .closure (reflList hliteral xs)
  | .invoke f xs => .invoke (refl hliteral f) (reflList hliteral xs)
  | .map f xs a => .map (refl hliteral f) (reflList hliteral xs) (reflOption hliteral a)
  | .fold _ f xs a i c =>
      .fold (refl hliteral f) (reflList hliteral xs) (reflOption hliteral a)
        (reflOption hliteral i) (reflOption hliteral c)
  | .allPairs f xs a =>
      .allPairs (refl hliteral f) (reflList hliteral xs) (reflOption hliteral a)
  termination_by structural x => x

theorem reflList (hliteral : ∀ c, literal c c) :
    ∀ xs : List Expr, List.Forall₂ (Alike Eq literal) xs xs
  | [] => .nil
  | x :: xs => .cons (refl hliteral x) (reflList hliteral xs)
  termination_by structural xs => xs

theorem reflOption (hliteral : ∀ c, literal c c) :
    ∀ x : Option Expr, Option.Rel (Alike Eq literal) x x
  | none => .none
  | some x => .some (refl hliteral x)
  termination_by structural x => x

end

mutual

-- Two expressions that are alike to a third one are alike to each other.
theorem euclid (hnaming : ∀ ⦃l m n⦄, naming₁ l n → naming₂ m n → naming l m)
    (hliteral : ∀ ⦃b c d⦄, literal₁ b d → literal₂ c d → literal b c) :
    ∀ x y z : Expr, Alike naming₁ literal₁ x z → Alike naming₂ literal₂ y z →
      Alike naming literal x y
  | .var .., _, _, .var h, .var h' => .var (hnaming h h')
  | .const .., _, _, .const h, .const h' => .const (hliteral h h')
  | .tuple xs, _, _, .tuple h, .tuple h' => .tuple (euclidList hnaming hliteral xs _ _ h h')
  | .array xs, _, _, .array h, .array h' => .array (euclidList hnaming hliteral xs _ _ h h')
  | .index x i, _, _, .index hx hi, .index hx' hi' =>
      .index (euclid hnaming hliteral x _ _ hx hx') (euclid hnaming hliteral i _ _ hi hi')
  | .slice a b c, _, _, .slice ha hb hc, .slice ha' hb' hc' =>
      .slice (euclid hnaming hliteral a _ _ ha ha') (euclid hnaming hliteral b _ _ hb hb')
        (euclid hnaming hliteral c _ _ hc hc')
  | .attribute x _, _, _, .attribute h, .attribute h' =>
      .attribute (euclid hnaming hliteral x _ _ h h')
  | .prim _ xs, _, _, .prim h, .prim h' => .prim (euclidList hnaming hliteral xs _ _ h h')
  | .closure _ xs, _, _, .closure h, .closure h' =>
      .closure (euclidList hnaming hliteral xs _ _ h h')
  | .invoke f xs, _, _, .invoke hf h, .invoke hf' h' =>
      .invoke (euclid hnaming hliteral f _ _ hf hf') (euclidList hnaming hliteral xs _ _ h h')
  | .map f xs a, _, _, .map hf h ha, .map hf' h' ha' =>
      .map (euclid hnaming hliteral f _ _ hf hf') (euclidList hnaming hliteral xs _ _ h h')
        (euclidOption hnaming hliteral a _ _ ha ha')
  | .fold _ f xs a i c, _, _, .fold hf h ha hi hc, .fold hf' h' ha' hi' hc' =>
      .fold (euclid hnaming hliteral f _ _ hf hf') (euclidList hnaming hliteral xs _ _ h h')
        (euclidOption hnaming hliteral a _ _ ha ha') (euclidOption hnaming hliteral i _ _ hi hi')
        (euclidOption hnaming hliteral c _ _ hc hc')
  | .allPairs f xs a, _, _, .allPairs hf h ha, .allPairs hf' h' ha' =>
      .allPairs (euclid hnaming hliteral f _ _ hf hf') (euclidList hnaming hliteral xs _ _ h h')
        (euclidOption hnaming hliteral a _ _ ha ha')
  termination_by structural x => x

theorem euclidList (hnaming : ∀ ⦃l m n⦄, naming₁ l n → naming₂ m n → naming l m)
    (hliteral : ∀ ⦃b c d⦄, literal₁ b d → literal₂ c d → literal b c) : ∀ xs ys zs : List Expr,
    List.Forall₂ (Alike naming₁ literal₁) xs zs → List.Forall₂ (Alike naming₂ literal₂) ys zs →
    List.Forall₂ (Alike naming literal) xs ys
  | [], _, _, .nil, .nil => .nil
  | x :: xs, _, _, .cons h hs, .cons h' hs' =>
      .cons (euclid hnaming hliteral x _ _ h h') (euclidList hnaming hliteral xs _ _ hs hs')
  termination_by structural xs => xs

theorem euclidOption (hnaming : ∀ ⦃l m n⦄, naming₁ l n → naming₂ m n → naming l m)
    (hliteral : ∀ ⦃b c d⦄, literal₁ b d → literal₂ c d → literal b c) : ∀ x y z : Option Expr,
    Option.Rel (Alike naming₁ literal₁) x z → Option.Rel (Alike naming₂ literal₂) y z →
    Option.Rel (Alike naming literal) x y
  | none, _, _, .none, .none => .none
  | some x, _, _, .some h, .some h' => .some (euclid hnaming hliteral x _ _ h h')
  termination_by structural x => x

end

mutual

-- Expressions whose variables and literals are all equal are equal.
theorem eq : ∀ x y : Expr, Alike Eq Eq x y → x = y
  | .var _, _, .var h => congrArg Expr.var h
  | .const _, _, .const h => congrArg Expr.const h
  | .tuple xs, _, .tuple h => by rw [eqList xs _ h]
  | .array xs, _, .array h => by rw [eqList xs _ h]
  | .index x i, _, .index hx hi => by rw [eq x _ hx, eq i _ hi]
  | .slice a b c, _, .slice ha hb hc => by rw [eq a _ ha, eq b _ hb, eq c _ hc]
  | .attribute x _, _, .attribute h => by rw [eq x _ h]
  | .prim _ xs, _, .prim h => by rw [eqList xs _ h]
  | .closure _ xs, _, .closure h => by rw [eqList xs _ h]
  | .invoke f xs, _, .invoke hf h => by rw [eq f _ hf, eqList xs _ h]
  | .map f xs a, _, .map hf h ha => by rw [eq f _ hf, eqList xs _ h, eqOption a _ ha]
  | .fold _ f xs a i c, _, .fold hf h ha hi hc => by
      rw [eq f _ hf, eqList xs _ h, eqOption a _ ha, eqOption i _ hi, eqOption c _ hc]
  | .allPairs f xs a, _, .allPairs hf h ha => by
      rw [eq f _ hf, eqList xs _ h, eqOption a _ ha]
  termination_by structural x => x

theorem eqList : ∀ xs ys : List Expr, List.Forall₂ (Alike Eq Eq) xs ys → xs = ys
  | [], _, .nil => rfl
  | x :: xs, _, .cons h hs => by rw [eq x _ h, eqList xs _ hs]
  termination_by structural xs => xs

theorem eqOption : ∀ x y : Option Expr, Option.Rel (Alike Eq Eq) x y → x = y
  | none, _, .none => rfl
  | some x, _, .some h => by rw [eq x _ h]
  termination_by structural x => x

end

end Alike

end Expr

theorem Merge.alike_of_sameList : ∀ xs ys : List (Merge Expr),
    sameList Expr.same xs ys = true →
      List.Forall₂ (Merge.Alike Eq (Expr.Alike Eq Const.Same)) xs ys
  | [], [], _ => .nil
  | x :: xs, y :: ys, h => by
      simp only [sameList, same, Bool.and_eq_true, decide_eq_true_eq] at h
      obtain ⟨⟨⟨hvar, hleft⟩, hright⟩, hrest⟩ := h
      exact .cons ⟨hvar, Expr.alike_of_same _ _ hleft, Expr.alike_of_same _ _ hright⟩
        (alike_of_sameList xs ys hrest)

mutual

theorem Stmt.alike_of_same : ∀ x y : Stmt Expr, x.same Expr.same y = true →
    x.Alike Eq (Expr.Alike Eq Const.Same) y
  | .assign x v, y => by
      cases y <;> simp only [same, Bool.and_eq_true, Bool.false_eq_true, false_implies]
      rintro ⟨hx, hv⟩
      exact .assign (Expr.alike_of_same x _ hx) (Expr.alike_of_same v _ hv)
  | .branch c xs xs' ms, y => by
      cases y <;> simp only [same, Bool.and_eq_true, Bool.false_eq_true, false_implies]
      rintro ⟨⟨⟨hc, h⟩, h'⟩, hm⟩
      exact .branch (Expr.alike_of_same c _ hc) (Stmt.alikeBlock_of_same xs _ h)
        (Stmt.alikeBlock_of_same xs' _ h') (Merge.alike_of_sameList ms _ hm)
  | .loop c xs ms, y => by
      cases y <;> simp only [same, Bool.and_eq_true, Bool.false_eq_true, false_implies]
      rintro ⟨⟨hc, h⟩, hm⟩
      exact .loop (Expr.alike_of_same c _ hc) (Stmt.alikeBlock_of_same xs _ h)
        (Merge.alike_of_sameList ms _ hm)
  | .ret v, y => by
      cases y <;> simp only [same, Bool.false_eq_true, false_implies]
      exact fun h => .ret (Expr.alike_of_same v _ h)
  termination_by structural x => x

theorem Stmt.alikeBlock_of_same : ∀ xs ys : List (Stmt Expr),
    sameBlock Expr.same xs ys = true →
      List.Forall₂ (Stmt.Alike Eq (Expr.Alike Eq Const.Same)) xs ys
  | [], [], _ => .nil
  | x :: xs, y :: ys, h => by
      simp only [sameBlock, Bool.and_eq_true] at h
      exact .cons (Stmt.alike_of_same x y h.1) (Stmt.alikeBlock_of_same xs ys h.2)
  termination_by structural xs => xs

end

theorem Merge.sameList_self : ∀ xs : List (Merge Expr), sameList Expr.same xs xs = true
  | [] => rfl
  | x :: xs => by
      simp only [sameList, same, Expr.same_self, sameList_self xs, decide_true, Bool.and_self]

mutual

theorem Stmt.same_self : ∀ x : Stmt Expr, x.same Expr.same x = true
  | .assign _ _ => by simp only [same, Expr.same_self, Bool.and_self]
  | .branch _ xs ys ms => by
      simp only [same, Expr.same_self, Stmt.sameBlock_self xs, Stmt.sameBlock_self ys,
        Merge.sameList_self ms, Bool.and_self]
  | .loop _ xs ms => by
      simp only [same, Expr.same_self, Stmt.sameBlock_self xs, Merge.sameList_self ms,
        Bool.and_self]
  | .ret _ => by simp only [same, Expr.same_self]
  termination_by structural x => x

theorem Stmt.sameBlock_self : ∀ xs : List (Stmt Expr), sameBlock Expr.same xs xs = true
  | [] => rfl
  | x :: xs => by
      simp only [sameBlock, Stmt.same_self x, Stmt.sameBlock_self xs, Bool.and_self]
  termination_by structural xs => xs

end

theorem NameMap.alike_of_zip : ∀ xs ys : NameMap Const, keys xs = keys ys →
    ((xs.zip ys).all fun pair => pair.1.2.same pair.2.2) = true → Alike Eq Const.Same xs ys
  | xs, ys, hkeys, hsame => by
      refine ⟨?_, fun _ => ⟨_, rfl⟩, fun _ => ⟨_, rfl⟩⟩
      rintro name _ rfl
      induction xs generalizing ys with
      | nil =>
          cases ys with
          | nil => exact .none
          | cons => cases hkeys
      | cons entry xs ih =>
          obtain ⟨key, value⟩ := entry
          cases ys with
          | nil => cases hkeys
          | cons entry' ys =>
              obtain ⟨key', value'⟩ := entry'
              simp only [keys, List.map_cons, List.cons.injEq] at hkeys
              obtain ⟨rfl, hkeys⟩ := hkeys
              simp only [List.zip_cons_cons, List.all_cons, Bool.and_eq_true] at hsame
              rw [find?_cons, find?_cons]
              split
              · exact .some hsame.1
              · exact ih ys hkeys hsame.2

theorem Params.alike_of_same {x y : Params} (h : x.same y = true) :
    x.Alike Eq Const.Same y := by
  simp only [same, Bool.and_eq_true, decide_eq_true_eq] at h
  obtain ⟨⟨⟨hpositional, hvarargs⟩, hkeys⟩, hsame⟩ := h
  refine ⟨?_, NameMap.alike_of_zip _ _ hkeys hsame, ?_⟩
  · rw [hpositional]
    exact List.forall₂_same.mpr fun _ _ => rfl
  · exact optionRel_eq_iff.mpr hvarargs

theorem Params.same_self (params : Params) : params.same params = true := by
  have hdefaults : ((params.defaults.zip params.defaults).all fun pair =>
      pair.1.2.same pair.2.2) = true := by
    rw [List.zip, List.zipWith_self, List.all_map, List.all_eq_true]
    exact fun entry _ => Const.Same.refl entry.2
  simp only [same, hdefaults, decide_true, Bool.and_self]

structure Func.Alike (naming : Naming) (literal : Const → Const → Prop) (lhs rhs : Func) :
    Prop where
  name : lhs.name = rhs.name
  params : lhs.params.Alike naming literal rhs.params
  body : List.Forall₂ (Stmt.Alike naming (Expr.Alike naming literal)) lhs.body rhs.body

-- Functions that are alike under their own names.
abbrev Func.Same (lhs rhs : Func) : Prop :=
  lhs.Alike Eq Const.Same rhs

-- A function counts as itself, so it can be registered again.
theorem Func.same_self (func : Func) : func.same func = true := by
  simp only [same, Params.same_self, Stmt.sameBlock_self, decide_true, Bool.and_self]

theorem Func.Same.of_same {f g : Func} (h : f.same g = true) : f.Same g := by
  simp only [same, Bool.and_eq_true, decide_eq_true_eq] at h
  obtain ⟨⟨hname, hparams⟩, hbody⟩ := h
  exact ⟨hname, Params.alike_of_same hparams, Stmt.alikeBlock_of_same _ _ hbody⟩

theorem Func.Same.euclid {f g h : Func} (hf : f.Same h) (hg : g.Same h) : f.Same g where
  name := hf.name.trans hg.name.symm
  params := by
    have hspan : Naming.span Eq Eq = (Eq : Naming) := by
      funext m n
      simp [Naming.span, eq_comm]
    have hparams := hf.params.euclid Const.Same.euclid hg.params
    rwa [hspan] at hparams
  body := by
    have heq : ∀ ⦃l m n : String⦄, l = n → m = n → l = m := fun _ _ _ hl hm => hl.trans hm.symm
    exact Stmt.Alike.euclidBlock heq
      (fun x y z hx hy => hx.euclid heq Const.Same.euclid x y z hy) _ _ _ hf.body hg.body

end RankPoly
