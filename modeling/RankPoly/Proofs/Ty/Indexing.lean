import RankPoly.Proofs.Ty.Rank

namespace RankPoly.Ty

-- What is left of a value that is indexed with one part after the other.
def indexEach (value : Ty) (parts : List Ty) : Except TyError Ty :=
  parts.foldlM indexType value

-- The number of dimensions that one part of an index drops.
def drops (part : Ty) : Nat :=
  if part.isPosition then 1 else 0

-- The number of parts that drop a dimension.
def positions (parts : List Ty) : Nat :=
  (parts.filter isPosition).length

-- An index that has no others in it, as a tuple or an array of them does.
def isSingle : Ty → Bool
  | .tuple _ | .array .. => false
  | _ => true

variable {elem : Scalar} {rank : Nat} {part ty mid : Ty} {parts front back : List Ty}

theorem drops_le_one (part : Ty) : part.drops ≤ 1 := by
  unfold drops
  split <;> omega

theorem positions_cons (part : Ty) (rest : List Ty) :
    positions (part :: rest) = part.drops + positions rest := by
  unfold positions drops
  by_cases h : part.isPosition <;> simp [h, Nat.add_comm]

theorem positions_le_length (parts : List Ty) : positions parts ≤ parts.length :=
  List.length_filter_le isPosition parts

theorem ofRank_eq_scalar_iff : ofRank elem rank = scalar elem ↔ rank = 0 := by
  unfold ofRank
  split <;> simp_all

-- One part drops a dimension, keeps all of them or is refused.
theorem indexType_single (elem : Scalar) (hrank : 0 < rank) (hpart : part.isSingle) :
    (array elem rank).indexType part =
      if part.isPosition || part.isSlice then .ok (ofRank elem (rank - part.drops))
      else .error (.index (array elem rank) part) := by
  cases part with
  | scalar kind =>
      by_cases h : (scalar kind).isPosition <;> simp [indexType, drops, isSlice, h]
  | slice start stop step => simp [indexType, drops, isPosition, isSlice, ofRank_of_pos elem hrank]
  | tuple elems => cases hpart
  | array elem rank => cases hpart
  | unknown | struct fields | closure target | closureSet members | none =>
      simp [indexType, isPosition, isSlice]

-- The parts of a tuple are counted at once.
theorem indexType_tuple_eq_ok_iff : (array elem rank).indexType (tuple parts) = .ok ty ↔
    parts.length ≤ rank ∧ (∀ part ∈ parts, part.isPosition || part.isSlice) ∧
      ty = ofRank elem (rank - positions parts) := by
  simp only [indexType, List.all_eq_true, positions]
  by_cases h : parts.length ≤ rank ∧ ∀ part ∈ parts, (part.isPosition || part.isSlice) = true
  · rw [if_pos h, Except.ok.injEq, ← and_assoc, and_iff_right h]
    exact eq_comm
  · rw [if_neg h]
    exact iff_of_false nofun fun h' => h ⟨h'.1, h'.2.1⟩

theorem indexType_tuple_of_rank_lt (h : rank < parts.length) :
    (array elem rank).indexType (tuple parts) =
      .error (.index (array elem rank) (tuple parts)) :=
  if_neg fun h' => absurd h'.1 (Nat.not_le_of_lt h)

-- As long as there are no more parts than dimensions, a dimension is left for each part to
-- come, so that no part meets a scalar.
theorem indexEach_eq_ok_iff (hparts : ∀ part ∈ parts, part.isSingle)
    (hlength : parts.length ≤ rank) : (ofRank elem rank).indexEach parts = .ok ty ↔
      (∀ part ∈ parts, part.isPosition || part.isSlice) ∧
        ty = ofRank elem (rank - positions parts) := by
  induction parts generalizing rank with
  | nil =>
      have hkept : (ofRank elem rank).indexEach [] = .ok (ofRank elem rank) := rfl
      rw [hkept, Except.ok.injEq, and_iff_right (List.forall_mem_nil _)]
      exact eq_comm
  | cons part rest ih =>
      obtain ⟨hpart, hrest⟩ := List.forall_mem_cons.mp hparts
      rw [List.length_cons] at hlength
      have hrank : 0 < rank := by omega
      have hstep := indexType_single elem hrank hpart
      rw [ofRank_of_pos elem hrank, indexEach, List.foldlM_cons, hstep, positions_cons]
      by_cases hselects : part.isPosition || part.isSlice
      · have hdrops := drops_le_one part
        have hleft : rest.length ≤ rank - part.drops := by omega
        rw [if_pos hselects, List.forall_mem_cons, and_iff_right hselects, ← Nat.sub_sub]
        exact ih hrest hleft
      · rw [if_neg hselects]
        have hrefused : ∀ f : Ty → Except TyError Ty,
            (.error (.index (array elem rank) part) >>= f) ≠ .ok ty := fun _ => nofun
        exact iff_of_false (hrefused _) fun h => hselects (h.1 part List.mem_cons_self)

-- Before each part there still is a dimension to drop.
theorem indexEach_before (hparts : ∀ single ∈ front ++ part :: back, single.isSingle)
    (hlength : (front ++ part :: back).length ≤ rank)
    (h : (ofRank elem rank).indexEach front = .ok mid) :
    ∃ left, mid = array elem left ∧ 1 ≤ left ∧ left + positions front = rank := by
  have hsingle : ∀ part ∈ front, part.isSingle :=
    fun single hmem => hparts single (List.mem_append_left _ hmem)
  rw [List.length_append, List.length_cons] at hlength
  have hpositions := positions_le_length front
  obtain ⟨-, rfl⟩ := (indexEach_eq_ok_iff hsingle (by omega)).mp h
  exact ⟨rank - positions front, ofRank_of_pos elem (by omega), by omega, by omega⟩

-- Indexing an array with a tuple is indexing it with the parts of the tuple one after the
-- other, as long as there are no more of them than dimensions. Each position drops a
-- dimension that is there. A tuple with more parts is refused, whatever they are.
theorem indexType_tuple_in_turn {elem : Scalar} {rank : Nat} (hrank : 1 ≤ rank) :
    (∀ parts : List Ty, (∀ part ∈ parts, part.isSingle) → parts.length ≤ rank →
      (∀ ty, (array elem rank).indexType (tuple parts) = .ok ty ↔
        (array elem rank).indexEach parts = .ok ty) ∧
      positions parts ≤ rank ∧
      (∀ ty, (array elem rank).indexType (tuple parts) = .ok ty →
        ty.rank = rank - positions parts ∧ ty.elementType = scalar elem ∧
          (ty = scalar elem ↔ rank - positions parts = 0)) ∧
      ∀ front part back mid, parts = front ++ part :: back →
        (array elem rank).indexEach front = .ok mid →
        ∃ left, mid = array elem left ∧ 1 ≤ left ∧ left + positions front = rank) ∧
    ∀ parts : List Ty, rank < parts.length →
      (array elem rank).indexType (tuple parts) =
        .error (.index (array elem rank) (tuple parts)) := by
  refine ⟨?_, fun parts hlength => indexType_tuple_of_rank_lt hlength⟩
  intro parts hparts hlength
  have hvalue : array elem rank = ofRank elem rank := (ofRank_of_pos elem hrank).symm
  refine ⟨fun ty => ?_, Nat.le_trans (positions_le_length parts) hlength, fun ty hty => ?_, ?_⟩
  · rw [indexType_tuple_eq_ok_iff, hvalue, indexEach_eq_ok_iff hparts hlength]
    exact and_iff_right hlength
  · obtain ⟨-, -, rfl⟩ := indexType_tuple_eq_ok_iff.mp hty
    exact ⟨rank_ofRank _ _, elementType_ofRank _ _, ofRank_eq_scalar_iff⟩
  · rintro front part back mid rfl hfront
    rw [hvalue] at hfront
    exact indexEach_before hparts hlength hfront

-- A slice keeps the first dimension of three, the other two are dropped. On a vector two
-- slices are too many for a tuple, though not for indexing twice.
theorem volume_indexed_in_turn :
    let volume := array .f64 3
    let parts := [slice none (scalar .i64) none, scalar .bool, scalar .u8]
    let vector := array .f64 1
    1 ≤ 3 ∧ (∀ part ∈ parts, part.isSingle) ∧ parts.length ≤ 3 ∧
      volume.indexType (tuple parts) = .ok vector ∧ volume.indexEach parts = .ok vector ∧
      vector.rank = 3 - positions parts ∧ vector ≠ scalar .f64 ∧
      (∃ left, volume.indexEach parts.dropLast = .ok (array .f64 left) ∧ 1 ≤ left ∧
        left + positions parts.dropLast = 3) ∧
      vector.indexType (tuple [slice none none none, slice none none none]) =
        .error (.index vector (tuple [slice none none none, slice none none none])) ∧
      vector.indexEach [slice none none none, slice none none none] = .ok vector := by
  intro volume parts vector
  have hparts : ∀ part ∈ parts, part.isSingle := by decide
  have hlength : parts.length ≤ 3 := by decide
  have hty : volume.indexType (tuple parts) = .ok vector := by decide
  obtain ⟨hiff, -, hresult, hbefore⟩ :=
    (indexType_tuple_in_turn (by decide : 1 ≤ 3)).1 parts hparts hlength
  obtain ⟨hrank, -, hscalar⟩ := hresult vector hty
  have hfront : volume.indexEach parts.dropLast = .ok (array .f64 2) := by decide
  obtain ⟨left, hleft, hpos, hsum⟩ :=
    hbefore parts.dropLast (scalar .u8) [] (array .f64 2) (by decide) hfront
  refine ⟨by decide, hparts, hlength, hty, (hiff vector).mp hty, hrank, ?_, ?_, ?_, by decide⟩
  · exact fun h => absurd (hscalar.mp h) (by decide)
  · exact ⟨left, hleft ▸ hfront, hpos, hsum⟩
  · exact (indexType_tuple_in_turn (by decide : 1 ≤ 1)).2 _ (by decide)

end RankPoly.Ty
