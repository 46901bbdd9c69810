import Mathlib.Algebra.GroupWithZero.Nat
import RankPoly.Proofs.Ty.Below

namespace RankPoly

namespace Scalar

-- The length of a longest chain of promotions from a kind up to `f64`.
def headroom : Scalar → Nat
  | .bool => 6
  | .u8 => 5
  | .i8 | .u16 => 4
  | .i16 | .u32 => 3
  | .i32 | .u64 => 2
  | .i64 | .f32 => 1
  | .f64 => 0

-- A promotion that changes a kind goes up along a chain.
theorem headroom_promote {k l : Scalar} (h : k.promote l ≠ k) :
    (k.promote l).headroom < k.headroom := by
  have hall : ∀ k ∈ Scalar.all, ∀ l ∈ Scalar.all, k.promote l ≠ k →
      (k.promote l).headroom < k.headroom := by
    decide +kernel
  exact hall k k.mem_all l l.mem_all h

theorem headroom_le (k : Scalar) : k.headroom ≤ 6 := by
  cases k <;> decide

-- Kinds that differ are not promoted to truth values.
theorem headroom_promote_lt {k l : Scalar} (h : k ≠ l) : (k.promote l).headroom < 6 := by
  have hall : ∀ k ∈ Scalar.all, ∀ l ∈ Scalar.all, k ≠ l → (k.promote l).headroom < 6 := by
    decide +kernel
  exact hall k k.mem_all l l.mem_all h

end Scalar

namespace Ty

-- Types that are known and have no closures, if their parts are such types too.
def Plain : Ty → Prop
  | .unknown | .closure _ | .closureSet _ => False
  | _ => True

instance : DecidablePred Plain
  | .unknown | .closure _ | .closureSet _ => inferInstanceAs (Decidable False)
  | .scalar _ | .array .. | .tuple _ | .struct _ | .slice .. | .none =>
    inferInstanceAs (Decidable True)

def isLeaf (ty : Ty) : Bool :=
  ty.isScalar || ty.isArray

-- The scalars and arrays that a type is made of.
def leaves (ty : Ty) : List Ty :=
  ty.parts.filter isLeaf

-- How often joins can change a scalar or an array. An array without dimensions is joined to
-- a scalar, which is a change even if the kind stays, unless it is joined with itself.
def slack : Ty → Nat
  | .scalar kind => kind.headroom
  | .array elem rank => if rank = 0 then min 6 (elem.headroom + 1) else elem.headroom
  | _ => 0

-- How often joins can change a type.
def headroom (ty : Ty) : Nat :=
  (ty.parts.map slack).sum

theorem slack_le (ty : Ty) : ty.slack ≤ 6 := by
  cases ty with
  | scalar k => exact k.headroom_le
  | array k n =>
      have hkind := k.headroom_le
      change (if n = 0 then min 6 (k.headroom + 1) else k.headroom) ≤ 6
      split <;> omega
  | _ => exact Nat.zero_le 6

theorem slack_of_not_leaf {ty : Ty} (h : ¬ty.isLeaf = true) : ty.slack = 0 := by
  cases ty <;> first | rfl | exact absurd rfl h

-- No leaf can be changed more often than a truth value.
theorem headroom_le (ty : Ty) : ty.headroom ≤ 6 * ty.leaves.length := by
  unfold headroom leaves
  induction ty.parts with
  | nil => exact Nat.zero_le _
  | cons first rest ih =>
      rw [List.map_cons, List.sum_cons, List.filter_cons]
      split
      · have hfirst := first.slack_le
        rw [List.length_cons]
        omega
      · rename_i hleaf
        rw [slack_of_not_leaf hleaf]
        omega

section Equations

theorem headroom_tuple (elems : List Ty) :
    (tuple elems).headroom = (elems.map headroom).sum := by
  have hlist : ((partsList elems).map slack).sum = (elems.map headroom).sum := by
    induction elems with
    | nil => rfl
    | cons first rest ih =>
        change ((parts first ++ partsList rest).map slack).sum = _
        rw [List.map_append, List.sum_append, ih]
        rfl
  change 0 + ((partsList elems).map slack).sum = _
  rw [Nat.zero_add, hlist]

theorem headroom_struct (fields : List (String × Ty)) :
    (struct fields).headroom = ((fields.map Prod.snd).map headroom).sum := by
  have hlist : ((partsFields fields).map slack).sum =
      ((fields.map Prod.snd).map headroom).sum := by
    induction fields with
    | nil => rfl
    | cons field rest ih =>
        change ((parts field.2 ++ partsFields rest).map slack).sum = _
        rw [List.map_append, List.sum_append, ih]
        rfl
  change 0 + ((partsFields fields).map slack).sum = _
  rw [Nat.zero_add, hlist]

theorem headroom_slice (x y z : Ty) :
    (slice x y z).headroom = ([x, y, z].map headroom).sum := by
  change 0 + ((parts x ++ parts y ++ parts z).map slack).sum = _
  rw [Nat.zero_add, List.map_append, List.map_append, List.sum_append, List.sum_append,
    Nat.add_assoc]
  rfl

end Equations

-- A plain type stays as it is, or becomes one of which less can be changed.
structure Climbs (a c : Ty) : Prop where
  plain : AllParts Plain c
  lower : c = a ∨ c.headroom < a.headroom

namespace Climbs

variable {a b c : Ty}

theorem refl (ha : AllParts Plain a) : Climbs a a :=
  ⟨ha, Or.inl rfl⟩

theorem le (h : Climbs a c) : c.headroom ≤ a.headroom := by
  rcases h.lower with rfl | hlt
  · exact Nat.le_refl _
  · exact Nat.le_of_lt hlt

theorem trans (h : Climbs a b) (h' : Climbs b c) : Climbs a c := by
  refine ⟨h'.plain, ?_⟩
  rcases h.lower with rfl | hlt
  · exact h'.lower
  · exact Or.inr (Nat.lt_of_le_of_lt h'.le hlt)

-- Where types climb side by side, each change counts for all of them.
theorem sum {xs zs : List Ty} (h : List.Forall₂ Climbs xs zs) :
    zs = xs ∨ (zs.map headroom).sum < (xs.map headroom).sum := by
  induction h with
  | nil => exact Or.inl rfl
  | cons hfirst _ ih =>
      simp only [List.map_cons, List.sum_cons]
      have hle := hfirst.le
      rcases ih with rfl | hrest
      · rcases hfirst.lower with rfl | hlt
        · exact Or.inl rfl
        · exact Or.inr (by omega)
      · exact Or.inr (by omega)

theorem of_forall₂ {xs zs : List Ty} (h : List.Forall₂ Climbs xs zs) :
    ∀ z ∈ zs, AllParts Plain z := by
  induction h with
  | nil => exact nofun
  | cons hfirst _ ih => exact List.forall_mem_cons.mpr ⟨hfirst.plain, ih⟩

-- Without dimensions, only an array of truth values that is joined with another one has
-- nothing to gain but its kind.
theorem ofRank {k l : Scalar} (hne : k ≠ l) (n : Nat) :
    Climbs (array k n) (Ty.ofRank (k.promote l) n) := by
  have hkind : k.promote l = k ∨ (k.promote l).headroom < k.headroom := by
    by_cases heq : k.promote l = k
    · exact Or.inl heq
    · exact Or.inr (Scalar.headroom_promote heq)
  by_cases hrank : n = 0
  · have hscalar : Ty.ofRank (k.promote l) n = scalar (k.promote l) := if_pos hrank
    have hbound : (k.promote l).headroom < 6 := Scalar.headroom_promote_lt hne
    rw [hscalar]
    refine ⟨allParts_scalar.mpr trivial, Or.inr ?_⟩
    change (k.promote l).headroom + 0 < (if n = 0 then min 6 (k.headroom + 1) else k.headroom) + 0
    rw [if_pos hrank]
    rcases hkind with heq | hlt
    · rw [heq] at hbound ⊢
      omega
    · omega
  · have harray : Ty.ofRank (k.promote l) n = array (k.promote l) n := if_neg hrank
    rw [harray]
    refine ⟨allParts_array.mpr trivial, ?_⟩
    rcases hkind with heq | hlt
    · exact Or.inl (congrArg (array · n) heq)
    · refine Or.inr ?_
      change (if n = 0 then _ else (k.promote l).headroom) + 0 <
        (if n = 0 then _ else k.headroom) + 0
      rw [if_neg hrank, if_neg hrank]
      exact hlt

end Climbs

mutual

-- What is joined into a plain type leaves it as it is, or raises one of its leaves.
theorem climbs_combine : ∀ (a b c : Ty), AllParts Plain a → a.combine b = .ok c → Climbs a c
  | .unknown, _, _, ha, _ => ha.self.elim
  | .scalar k, b, c, ha, h => by
      cases joins_of_combine h with
      | same | right => exact .refl ha
      | @scalar _ l =>
          refine ⟨allParts_scalar.mpr trivial, ?_⟩
          by_cases heq : k.promote l = k
          · exact Or.inl (congrArg scalar heq)
          · exact Or.inr (Scalar.headroom_promote heq)
  | .array k n, b, c, ha, h => by
      by_cases heq : Ty.array k n = b
      · subst heq
        rw [combine_self] at h
        cases h
        exact .refl ha
      · cases joins_of_combine h with
        | same => exact absurd rfl heq
        | right => exact .refl ha
        | array => exact .ofRank (fun hkind => heq (congrArg (array · n) hkind)) n
  | .tuple xs, b, c, ha, h => by
      cases joins_of_combine h with
      | same | right => exact .refl ha
      | @tuple _ ys zs hlength hzs =>
          have hclimb := climbs_combineLists xs ys zs hlength (allParts_tuple.mp ha).2 hzs
          refine ⟨allParts_tuple.mpr ⟨trivial, Climbs.of_forall₂ hclimb⟩, ?_⟩
          rw [headroom_tuple, headroom_tuple]
          exact (Climbs.sum hclimb).imp_left (congrArg tuple)
  | .struct xs, b, c, ha, h => by
      cases joins_of_combine h with
      | same | right => exact .refl ha
      | @struct _ ys zs hkeys hzs =>
          obtain ⟨hnames, hclimb⟩ :=
            climbs_combineFields xs ys zs hkeys (allParts_struct.mp ha).2 hzs
          refine ⟨allParts_struct.mpr ⟨trivial, ?_⟩, ?_⟩
          · exact List.forall_mem_map.mp (Climbs.of_forall₂ hclimb)
          · rw [headroom_struct, headroom_struct]
            refine (Climbs.sum hclimb).imp_left fun hsame => congrArg struct ?_
            exact (List.zip_of_prod hnames hsame).trans (List.zip_of_prod rfl rfl).symm
  | .closure _, _, _, ha, _ => ha.self.elim
  | .closureSet _, _, _, ha, _ => ha.self.elim
  | .slice x y z, b, c, ha, h => by
      cases joins_of_combine h with
      | same | right => exact .refl ha
      | slice hx hy hz =>
          obtain ⟨-, hax, hay, haz⟩ := allParts_slice.mp ha
          have hx := climbs_combine x _ _ hax hx
          have hy := climbs_combine y _ _ hay hy
          have hz := climbs_combine z _ _ haz hz
          refine ⟨allParts_slice.mpr ⟨trivial, hx.plain, hy.plain, hz.plain⟩, ?_⟩
          rw [headroom_slice, headroom_slice]
          refine (Climbs.sum (.cons hx (.cons hy (.cons hz .nil)))).imp_left fun hsame => ?_
          cases hsame
          rfl
  | .none, b, c, ha, h => by
      cases joins_of_combine h with
      | same | right => exact .refl ha
  termination_by structural a => a

theorem climbs_combineLists : ∀ (xs ys zs : List Ty), xs.length = ys.length →
    (∀ x ∈ xs, AllParts Plain x) → combineLists Scalar.promote xs ys = .ok zs →
    List.Forall₂ Climbs xs zs
  | [], [], zs, _, _, h => by
      cases h
      exact .nil
  | x :: xs, y :: ys, zs, hlength, hxs, h => by
      obtain ⟨hx, hxs⟩ := List.forall_mem_cons.mp hxs
      obtain ⟨z, rest, rfl, hz, hrest⟩ := combineLists_cons h
      have hfirst := climbs_combine x y z hx hz
      exact .cons hfirst (climbs_combineLists xs ys rest (Nat.succ.inj hlength) hxs hrest)
  termination_by structural xs => xs

theorem climbs_combineFields : ∀ (xs ys zs : List (String × Ty)),
    NameMap.keys xs = NameMap.keys ys → (∀ x ∈ xs, AllParts Plain x.2) →
    combineFields Scalar.promote xs ys = .ok zs →
    NameMap.keys zs = NameMap.keys xs ∧
      List.Forall₂ Climbs (xs.map Prod.snd) (zs.map Prod.snd)
  | [], [], zs, _, _, h => by
      cases h
      exact ⟨rfl, .nil⟩
  | (m, x) :: xs, (n, y) :: ys, zs, hkeys, hxs, h => by
      obtain ⟨hx, hxs⟩ := List.forall_mem_cons.mp hxs
      obtain ⟨z, rest, rfl, hz, hrest⟩ := combineFields_cons h
      have hfirst := climbs_combine x y z hx hz
      obtain ⟨hnames, hclimb⟩ := climbs_combineFields xs ys rest (List.cons.inj hkeys).2 hxs hrest
      exact ⟨congrArg (m :: ·) hnames, .cons hfirst hclimb⟩
  termination_by structural xs => xs

end

end Ty

end RankPoly
