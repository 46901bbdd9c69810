import Mathlib.Data.List.Forall2
import RankPoly.Annotate.Apply

namespace RankPoly

open Annotate (elementKind?)

namespace Ty

-- Scalars of a kind, and arrays of them.
def HasKind (ty : Ty) (kind : Scalar) : Prop :=
  ∃ rank, ty = ofRank kind rank

@[simp] theorem rank_ofRank (elem : Scalar) (rank : Nat) : (ofRank elem rank).rank = rank := by
  unfold ofRank
  split
  · rename_i hrank
    rw [hrank]
    rfl
  · rfl

@[simp] theorem elementType_ofRank (elem : Scalar) (rank : Nat) :
    (ofRank elem rank).elementType = scalar elem := by
  unfold ofRank
  split <;> rfl

theorem increaseRank_ofRank (elem : Scalar) (rank count : Nat) :
    (ofRank elem rank).increaseRank count = .ok (ofRank elem (rank + count)) := by
  cases count with
  | zero => rfl
  | succ count => cases rank <;> simp [ofRank, increaseRank]

theorem increaseRank_scalar (elem : Scalar) (count : Nat) :
    (scalar elem).increaseRank count = .ok (ofRank elem count) := by
  simpa [ofRank] using increaseRank_ofRank elem 0 count

-- One dimension can be taken off of everything, as a scalar has none to lose.
theorem lowerRank_ofRank (elem : Scalar) (rank : Nat) {count : Nat} (hcount : count ≤ 1) :
    (ofRank elem rank).lowerRank count = .ok (ofRank elem (rank - count)) := by
  rcases Nat.le_one_iff_eq_zero_or_eq_one.mp hcount with rfl | rfl
  · rfl
  · cases rank <;> simp [ofRank, lowerRank]

theorem maxRank_cons (ty : Ty) (tys : List Ty) : maxRank (ty :: tys) = max ty.rank (maxRank tys) := by
  have hstart : ∀ (tys : List Ty) (start : Nat),
      tys.foldl (fun highest ty => max highest ty.rank) start = max start (maxRank tys) := by
    intro tys
    induction tys with
    | nil => exact fun start => (Nat.max_zero start).symm
    | cons ty tys ih =>
        intro start
        unfold maxRank
        rw [List.foldl_cons, List.foldl_cons, ih, ih (max 0 ty.rank), Nat.zero_max, Nat.max_assoc]
  unfold maxRank
  rw [List.foldl_cons, hstart, Nat.zero_max]
  rfl

theorem maxRank_scalars (kinds : List Scalar) : maxRank (kinds.map scalar) = 0 := by
  induction kinds with
  | nil => rfl
  | cons kind kinds ih =>
      rw [List.map_cons, maxRank_cons, ih]
      rfl

theorem forall₂_hasKind_scalars (kinds : List Scalar) :
    List.Forall₂ HasKind (kinds.map scalar) kinds :=
  List.forall₂_map_left_iff.mpr (List.forall₂_same.mpr fun _ _ => ⟨0, rfl⟩)

variable {tys : List Ty} {kinds : List Scalar}

theorem ne_unknown_of_hasKind (h : List.Forall₂ HasKind tys kinds) : .unknown ∉ tys := by
  induction h with
  | nil => exact List.not_mem_nil
  | @cons ty kind _ _ hty _ ih =>
      obtain ⟨rank, rfl⟩ := hty
      refine List.not_mem_cons_of_ne_of_not_mem ?_ ih
      unfold ofRank
      split <;> simp

theorem mapM_elementKind?_of_hasKind (h : List.Forall₂ HasKind tys kinds) :
    tys.mapM elementKind? = some kinds := by
  induction h with
  | nil => rfl
  | @cons ty kind _ _ hty _ ih =>
      obtain ⟨rank, rfl⟩ := hty
      have hkind : elementKind? (ofRank kind rank) = some kind := by cases rank <;> rfl
      rw [List.mapM_cons, hkind, ih]
      rfl

-- Without an array there are only scalars.
theorem eq_scalars_of_maxRank (h : List.Forall₂ HasKind tys kinds) (hrank : maxRank tys = 0) :
    tys = kinds.map scalar := by
  induction h with
  | nil => rfl
  | @cons ty kind _ _ hty _ ih =>
      obtain ⟨rank, rfl⟩ := hty
      rw [maxRank_cons, rank_ofRank, Nat.max_eq_zero_iff] at hrank
      rw [ih hrank.2, hrank.1]
      rfl

-- What is left of scalars and arrays along one of their dimensions, or along none.
theorem lowerRanks_of_hasKind {count : Nat} (hcount : count ≤ 1)
    (h : List.Forall₂ HasKind tys kinds) :
    ∃ nested, lowerRanks tys count = .ok nested ∧ List.Forall₂ HasKind nested kinds ∧
      maxRank nested = maxRank tys - count := by
  induction h with
  | nil => exact ⟨[], rfl, .nil, (Nat.zero_sub count).symm⟩
  | @cons ty kind _ _ hty _ ih =>
      obtain ⟨rank, rfl⟩ := hty
      obtain ⟨nested, hnested, hkinds, hrank⟩ := ih
      refine ⟨ofRank kind (rank - count) :: nested, ?_, .cons ⟨_, rfl⟩ hkinds, ?_⟩
      · unfold lowerRanks at hnested ⊢
        rw [List.mapM_cons, lowerRank_ofRank kind rank hcount, hnested]
        rfl
      · rw [maxRank_cons, maxRank_cons, hrank, rank_ofRank, rank_ofRank, Nat.sub_max_sub_right]

end Ty

end RankPoly
