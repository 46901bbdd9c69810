import RankPoly.Ty.Order
import Mathlib.Data.List.Basic

namespace RankPoly

theorem Scalar.all_index (kind : Scalar) : Scalar.all[kind.index]? = some kind := by
  cases kind <;> rfl

theorem Scalar.index_injective : Function.Injective Scalar.index := by
  intro k l h
  have hk := Scalar.all_index k
  rw [h, Scalar.all_index l] at hk
  exact (Option.some.inj hk).symm

namespace Ty

theorem compare_index_eq_iff (k l : Scalar) : Ord.compare k.index l.index = .eq ↔ k = l :=
  Nat.compare_eq_eq.trans Scalar.index_injective.eq_iff

mutual

-- Types that compare equal are equal.
theorem compare_eq_iff : ∀ lhs rhs : Ty, Ty.compare lhs rhs = .eq ↔ lhs = rhs
  | .unknown, rhs => by cases rhs <;> simp [Ty.compare, form]
  | .scalar k, rhs => by cases rhs <;> simp [Ty.compare, form, Scalar.index_injective.eq_iff]
  | .array k m, rhs => by
    cases rhs <;> simp [Ty.compare, form, Scalar.index_injective.eq_iff, Ordering.then_eq_eq]
  | .tuple xs, rhs => by cases rhs <;> simp [Ty.compare, form, compareList_eq_iff xs]
  | .struct xs, rhs => by cases rhs <;> simp [Ty.compare, form, compareFields_eq_iff xs]
  | .closure c, rhs => by cases rhs <;> simp [Ty.compare, form, compareClosure_eq_iff c]
  | .closureSet cs, rhs => by cases rhs <;> simp [Ty.compare, form, compareClosures_eq_iff cs]
  | .slice x y z, rhs => by
    cases rhs <;> simp [Ty.compare, form, Ordering.then_eq_eq, compare_eq_iff x, compare_eq_iff y,
      compare_eq_iff z, and_assoc]
  | .none, rhs => by cases rhs <;> simp [Ty.compare, form]
  termination_by structural lhs => lhs

theorem compareList_eq_iff : ∀ lhs rhs : List Ty, compareList lhs rhs = .eq ↔ lhs = rhs
  | [], rhs => by cases rhs <;> simp [compareList]
  | x :: xs, rhs => by
    cases rhs <;> simp [compareList, Ordering.then_eq_eq, compare_eq_iff x, compareList_eq_iff xs]
  termination_by structural lhs => lhs

theorem compareFields_eq_iff :
    ∀ lhs rhs : List (String × Ty), compareFields lhs rhs = .eq ↔ lhs = rhs
  | [], rhs => by cases rhs <;> simp [compareFields]
  | (m, x) :: xs, rhs => by
    cases rhs with
    | nil => simp [compareFields]
    | cons entry ys =>
        obtain ⟨n, y⟩ := entry
        simp [compareFields, Ordering.then_eq_eq, compare_eq_iff x, compareFields_eq_iff xs]
  termination_by structural lhs => lhs

theorem compareClosure_eq_iff :
    ∀ lhs rhs : Closure, compareClosure lhs rhs = .eq ↔ lhs = rhs
  | ⟨f, xs⟩, ⟨g, ys⟩ => by simp [compareClosure, Ordering.then_eq_eq, compareList_eq_iff xs]
  termination_by structural lhs => lhs

theorem compareClosures_eq_iff :
    ∀ lhs rhs : List Closure, compareClosures lhs rhs = .eq ↔ lhs = rhs
  | [], rhs => by cases rhs <;> simp [compareClosures]
  | c :: cs, rhs => by
    cases rhs <;> simp [compareClosures, Ordering.then_eq_eq, compareClosure_eq_iff c,
      compareClosures_eq_iff cs]
  termination_by structural lhs => lhs

end

mutual

-- Turned around, a comparison has the opposite result.
theorem compare_swap : ∀ lhs rhs : Ty, Ty.compare lhs rhs = (Ty.compare rhs lhs).swap
  | .unknown, rhs => by cases rhs <;> rfl
  | .scalar k, rhs => by
    cases rhs <;> simp only [Ty.compare] <;> exact Std.OrientedCmp.eq_swap
  | .array k m, rhs => by
    cases rhs <;> simp only [Ty.compare, Ordering.swap_then]
    case array => exact congrArg₂ _ Std.OrientedCmp.eq_swap Std.OrientedCmp.eq_swap
    all_goals exact Std.OrientedCmp.eq_swap
  | .tuple xs, rhs => by
    cases rhs <;> simp only [Ty.compare]
    case tuple ys => exact compareList_swap xs ys
    all_goals exact Std.OrientedCmp.eq_swap
  | .struct xs, rhs => by
    cases rhs <;> simp only [Ty.compare]
    case struct ys => exact compareFields_swap xs ys
    all_goals exact Std.OrientedCmp.eq_swap
  | .closure c, rhs => by
    cases rhs <;> simp only [Ty.compare]
    case closure d => exact compareClosure_swap c d
    all_goals exact Std.OrientedCmp.eq_swap
  | .closureSet cs, rhs => by
    cases rhs <;> simp only [Ty.compare]
    case closureSet ds => exact compareClosures_swap cs ds
    all_goals exact Std.OrientedCmp.eq_swap
  | .slice x y z, rhs => by
    cases rhs <;> simp only [Ty.compare]
    case slice x' y' z' =>
      rw [compare_swap x, compare_swap y, compare_swap z, Ordering.swap_then, Ordering.swap_then]
    all_goals exact Std.OrientedCmp.eq_swap
  | .none, rhs => by cases rhs <;> rfl
  termination_by structural lhs => lhs

theorem compareList_swap :
    ∀ lhs rhs : List Ty, compareList lhs rhs = (compareList rhs lhs).swap
  | [], rhs => by cases rhs <;> rfl
  | x :: xs, rhs => by
    cases rhs with
    | nil => rfl
    | cons y ys =>
        simp only [compareList]
        rw [compare_swap x, compareList_swap xs, Ordering.swap_then]
  termination_by structural lhs => lhs

theorem compareFields_swap :
    ∀ lhs rhs : List (String × Ty), compareFields lhs rhs = (compareFields rhs lhs).swap
  | [], rhs => by cases rhs <;> rfl
  | (m, x) :: xs, rhs => by
    cases rhs with
    | nil => rfl
    | cons entry ys =>
        obtain ⟨n, y⟩ := entry
        have hname : Ord.compare m n = (Ord.compare n m).swap := Std.OrientedCmp.eq_swap
        simp only [compareFields]
        rw [hname, compare_swap x, compareFields_swap xs, Ordering.swap_then, Ordering.swap_then]
  termination_by structural lhs => lhs

theorem compareClosure_swap :
    ∀ lhs rhs : Closure, compareClosure lhs rhs = (compareClosure rhs lhs).swap
  | ⟨f, xs⟩, ⟨g, ys⟩ => by
    have hname : Ord.compare f g = (Ord.compare g f).swap := Std.OrientedCmp.eq_swap
    simp only [compareClosure]
    rw [hname, compareList_swap xs, Ordering.swap_then]
  termination_by structural lhs => lhs

theorem compareClosures_swap :
    ∀ lhs rhs : List Closure, compareClosures lhs rhs = (compareClosures rhs lhs).swap
  | [], rhs => by cases rhs <;> rfl
  | c :: cs, rhs => by
    cases rhs with
    | nil => rfl
    | cons d ds =>
        simp only [compareClosures]
        rw [compareClosure_swap c, compareClosures_swap cs, Ordering.swap_then]
  termination_by structural lhs => lhs

end

-- Of two lexicographic steps down the first part or, if it stays, the second one
-- goes down on the whole way.
theorem then_lt_trans {α : Type} (first : α → α → Ordering)
    (heq : ∀ {x y}, first x y = .eq ↔ x = y) {x y z : α} {second second' whole : Ordering}
    (hfirst : first x y = .lt → first y z = .lt → first x z = .lt)
    (hsecond : second = .lt → second' = .lt → whole = .lt)
    (h : (first x y).then second = .lt) (h' : (first y z).then second' = .lt) :
    (first x z).then whole = .lt := by
  rw [Ordering.then_eq_lt] at *
  rcases h with h | ⟨h, hrest⟩
  · rcases h' with h' | ⟨h', -⟩
    · exact Or.inl (hfirst h h')
    · rw [heq] at h'
      exact Or.inl (h' ▸ h)
  · rw [heq] at h
    subst h
    exact h'.imp_right fun ⟨h', hrest'⟩ => ⟨h', hsecond hrest hrest'⟩

theorem compare_of_form_lt {lhs rhs : Ty} (h : lhs.form < rhs.form) :
    Ty.compare lhs rhs = .lt := by
  have hform : Ord.compare lhs.form rhs.form = .lt := Nat.compare_eq_lt.mpr h
  cases lhs <;> cases rhs <;> first | exact hform | exact absurd h (Nat.lt_irrefl _)

theorem form_le_of_compare_lt {lhs rhs : Ty} (h : Ty.compare lhs rhs = .lt) :
    lhs.form ≤ rhs.form := by
  by_contra hlt
  have hgt := compare_of_form_lt (Nat.lt_of_not_le hlt)
  rw [compare_swap, hgt] at h
  cases h

-- Only types of one form are left to be compared when an order is followed twice.
theorem compare_lt_trans_of_form {x y z : Ty}
    (h : Ty.compare x y = .lt) (h' : Ty.compare y z = .lt)
    (hsame : x.form = y.form → y.form = z.form → Ty.compare x z = .lt) :
    Ty.compare x z = .lt := by
  have hle := form_le_of_compare_lt h
  have hle' := form_le_of_compare_lt h'
  by_cases hlt : x.form < z.form
  · exact compare_of_form_lt hlt
  · exact hsame (by omega) (by omega)

theorem compare_index_lt_trans {k l m : Scalar} (h : Ord.compare k.index l.index = .lt)
    (h' : Ord.compare l.index m.index = .lt) : Ord.compare k.index m.index = .lt :=
  Std.TransCmp.lt_trans h h'

mutual

theorem compare_lt_trans : ∀ x y z : Ty, Ty.compare x y = .lt → Ty.compare y z = .lt →
    Ty.compare x z = .lt
  | .unknown, y, z, h, h' => by
    refine compare_lt_trans_of_form h h' fun hy _ => ?_
    cases y <;> simp_all [Ty.compare, form]
  | .scalar k, y, z, h, h' => by
    refine compare_lt_trans_of_form h h' fun hy hz => ?_
    cases y <;> simp only [form, reduceCtorEq, Nat.reduceEqDiff] at hy
    cases z <;> simp only [form, reduceCtorEq, Nat.reduceEqDiff] at hz
    exact compare_index_lt_trans h h'
  | .array k m, y, z, h, h' => by
    refine compare_lt_trans_of_form h h' fun hy hz => ?_
    cases y <;> simp only [form, reduceCtorEq, Nat.reduceEqDiff] at hy
    cases z <;> simp only [form, reduceCtorEq, Nat.reduceEqDiff] at hz
    exact then_lt_trans (fun k l : Scalar => Ord.compare k.index l.index)
      (compare_index_eq_iff _ _) compare_index_lt_trans Std.TransCmp.lt_trans h h'
  | .tuple xs, y, z, h, h' => by
    refine compare_lt_trans_of_form h h' fun hy hz => ?_
    cases y <;> simp only [form, reduceCtorEq, Nat.reduceEqDiff] at hy
    cases z <;> simp only [form, reduceCtorEq, Nat.reduceEqDiff] at hz
    exact compareList_lt_trans xs _ _ h h'
  | .struct xs, y, z, h, h' => by
    refine compare_lt_trans_of_form h h' fun hy hz => ?_
    cases y <;> simp only [form, reduceCtorEq, Nat.reduceEqDiff] at hy
    cases z <;> simp only [form, reduceCtorEq, Nat.reduceEqDiff] at hz
    exact compareFields_lt_trans xs _ _ h h'
  | .closure c, y, z, h, h' => by
    refine compare_lt_trans_of_form h h' fun hy hz => ?_
    cases y <;> simp only [form, reduceCtorEq, Nat.reduceEqDiff] at hy
    cases z <;> simp only [form, reduceCtorEq, Nat.reduceEqDiff] at hz
    exact compareClosure_lt_trans c _ _ h h'
  | .closureSet cs, y, z, h, h' => by
    refine compare_lt_trans_of_form h h' fun hy hz => ?_
    cases y <;> simp only [form, reduceCtorEq, Nat.reduceEqDiff] at hy
    cases z <;> simp only [form, reduceCtorEq, Nat.reduceEqDiff] at hz
    exact compareClosures_lt_trans cs _ _ h h'
  | .slice a b c, y, z, h, h' => by
    refine compare_lt_trans_of_form h h' fun hy hz => ?_
    cases y <;> simp only [form, reduceCtorEq, Nat.reduceEqDiff] at hy
    cases z <;> simp only [form, reduceCtorEq, Nat.reduceEqDiff] at hz
    simp only [Ty.compare, Ordering.then_assoc] at h h' ⊢
    exact then_lt_trans Ty.compare (compare_eq_iff _ _) (compare_lt_trans a _ _)
      (then_lt_trans Ty.compare (compare_eq_iff _ _) (compare_lt_trans b _ _)
        (compare_lt_trans c _ _)) h h'
  | .none, y, z, h, h' => by
    refine compare_lt_trans_of_form h h' fun hy _ => ?_
    cases y <;> simp_all [Ty.compare, form]
  termination_by structural x => x

theorem compareList_lt_trans : ∀ x y z : List Ty, compareList x y = .lt → compareList y z = .lt →
    compareList x z = .lt
  | [], y, z, h, h' => by cases y <;> cases z <;> simp_all [compareList]
  | x :: xs, y, z, h, h' => by
    cases y with
    | nil => cases h
    | cons y ys =>
        cases z with
        | nil => cases h'
        | cons z zs =>
            exact then_lt_trans Ty.compare (compare_eq_iff _ _) (compare_lt_trans x _ _)
              (compareList_lt_trans xs _ _) h h'
  termination_by structural x => x

theorem compareFields_lt_trans : ∀ x y z : List (String × Ty), compareFields x y = .lt →
    compareFields y z = .lt → compareFields x z = .lt
  | [], y, z, h, h' => by cases y <;> cases z <;> simp_all [compareFields]
  | (l, x) :: xs, y, z, h, h' => by
    cases y with
    | nil => cases h
    | cons entry ys =>
        obtain ⟨m, y⟩ := entry
        cases z with
        | nil => cases h'
        | cons entry zs =>
            obtain ⟨n, z⟩ := entry
            simp only [compareFields, Ordering.then_assoc] at h h' ⊢
            exact then_lt_trans Ord.compare Std.compare_eq_iff_eq Std.TransCmp.lt_trans
              (then_lt_trans Ty.compare (compare_eq_iff _ _) (compare_lt_trans x _ _)
                (compareFields_lt_trans xs _ _)) h h'
  termination_by structural x => x

theorem compareClosure_lt_trans : ∀ x y z : Closure, compareClosure x y = .lt →
    compareClosure y z = .lt → compareClosure x z = .lt
  | ⟨f, xs⟩, ⟨g, ys⟩, ⟨i, zs⟩, h, h' => by
    exact then_lt_trans Ord.compare Std.compare_eq_iff_eq Std.TransCmp.lt_trans
      (compareList_lt_trans xs _ _) h h'
  termination_by structural x => x

theorem compareClosures_lt_trans : ∀ x y z : List Closure, compareClosures x y = .lt →
    compareClosures y z = .lt → compareClosures x z = .lt
  | [], y, z, h, h' => by cases y <;> cases z <;> simp_all [compareClosures]
  | c :: cs, y, z, h, h' => by
    cases y with
    | nil => cases h
    | cons d ds =>
        cases z with
        | nil => cases h'
        | cons e es =>
            exact then_lt_trans compareClosure (compareClosure_eq_iff _ _)
              (compareClosure_lt_trans c _ _)
              (compareClosures_lt_trans cs _ _) h h'
  termination_by structural x => x

end

end Ty

section Lawful

variable {α : Type} {cmp : α → α → Ordering}

-- An order that tells all values apart follows itself if it does so strictly.
theorem transCmp_of_lt_trans (heq : ∀ x y, cmp x y = .eq ↔ x = y)
    (hswap : ∀ x y, cmp x y = (cmp y x).swap)
    (hlt : ∀ x y z, cmp x y = .lt → cmp y z = .lt → cmp x z = .lt) : Std.TransCmp cmp where
  eq_swap := hswap _ _
  isLE_trans {x y z} h h' := by
    rcases Ordering.isLE_iff_eq_lt_or_eq_eq.mp h with h | h
    · rcases Ordering.isLE_iff_eq_lt_or_eq_eq.mp h' with h' | h'
      · rw [hlt x y z h h']
        rfl
      · rw [← (heq y z).mp h', h]
        rfl
    · rw [(heq x y).mp h]
      exact h'

end Lawful

instance : Std.LawfulEqOrd Ty where
  compare_self := (Ty.compare_eq_iff _ _).mpr rfl
  eq_of_compare := (Ty.compare_eq_iff _ _).mp

instance : Std.TransOrd Ty :=
  transCmp_of_lt_trans Ty.compare_eq_iff Ty.compare_swap Ty.compare_lt_trans

instance : Std.LawfulEqOrd Closure where
  compare_self := (Ty.compareClosure_eq_iff _ _).mpr rfl
  eq_of_compare := (Ty.compareClosure_eq_iff _ _).mp

instance : Std.TransOrd Closure :=
  transCmp_of_lt_trans Ty.compareClosure_eq_iff Ty.compareClosure_swap Ty.compareClosure_lt_trans

end RankPoly
