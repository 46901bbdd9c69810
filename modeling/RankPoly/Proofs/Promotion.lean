import RankPoly.Proofs.Ty.Symmetry

namespace RankPoly.Scalar

@[simp] theorem bool_promote (k : Scalar) : bool.promote k = k := by
  cases k <;> rfl

@[simp] theorem promote_bool (k : Scalar) : k.promote bool = k := by
  rw [promote_comm, bool_promote]

-- A promotion is the least kind above both, among the kinds below any one but `f32`. For
-- that one it is not, as `i16` and `u16` are both below it, and are promoted to `i32`.
theorem promote_least {k l m : Scalar} (hm : m ≠ f32) (hk : k.promote m = m)
    (hl : l.promote m = m) : (k.promote l).promote m = m := by
  have hleast : ∀ k ∈ Scalar.all, ∀ l ∈ Scalar.all, ∀ m ∈ Scalar.all, m ≠ f32 →
      k.promote m = m → l.promote m = m → (k.promote l).promote m = m := by
    decide +kernel
  exact hleast k k.mem_all l l.mem_all m m.mem_all hm hk hl

-- The kinds promoted from left to right. A truth value yields to all of them.
def promoteAll (kinds : List Scalar) : Scalar :=
  kinds.foldl promote bool

section Fold

variable {kinds : List Scalar} {start m : Scalar}

theorem foldl_promote_above (kinds : List Scalar) (start : Scalar) :
    start.promote (kinds.foldl promote start) = kinds.foldl promote start ∧
      ∀ k ∈ kinds, k.promote (kinds.foldl promote start) = kinds.foldl promote start := by
  induction kinds generalizing start with
  | nil => exact ⟨promote_self start, nofun⟩
  | cons first rest ih =>
      obtain ⟨hstart, hrest⟩ := ih (start.promote first)
      obtain ⟨hleft, hright⟩ := promote_promote start first
      rw [List.foldl_cons]
      refine ⟨promote_trans hleft hstart, List.forall_mem_cons.mpr ⟨?_, hrest⟩⟩
      exact promote_trans hright hstart

theorem foldl_promote_least (hm : m ≠ f32) (hstart : start.promote m = m)
    (hkinds : ∀ k ∈ kinds, k.promote m = m) : (kinds.foldl promote start).promote m = m := by
  induction kinds generalizing start with
  | nil => exact hstart
  | cons first rest ih =>
      obtain ⟨hfirst, hrest⟩ := List.forall_mem_cons.mp hkinds
      exact ih (promote_least hm hstart hfirst) hrest

-- What is above all kinds to come takes them in.
theorem foldl_promote_of_above (hkinds : ∀ k ∈ kinds, k.promote m = m) :
    kinds.foldl promote m = m := by
  induction kinds with
  | nil => rfl
  | cons first rest ih =>
      obtain ⟨hfirst, hrest⟩ := List.forall_mem_cons.mp hkinds
      rw [List.foldl_cons, promote_comm, hfirst]
      exact ih hrest

theorem foldl_promote_mem {family : List Scalar} (hstart : start ∈ family)
    (hclosed : ∀ k ∈ family, ∀ l ∈ family, k.promote l ∈ family)
    (hkinds : ∀ k ∈ kinds, k ∈ family) : kinds.foldl promote start ∈ family := by
  induction kinds generalizing start with
  | nil => exact hstart
  | cons first rest ih =>
      obtain ⟨hfirst, hrest⟩ := List.forall_mem_cons.mp hkinds
      exact ih (hclosed start hstart first hfirst) hrest

-- Kinds that are promoted only to each other are not left.
theorem promoteAll_mem {family : List Scalar} (hbool : bool ∈ family)
    (hclosed : ∀ k ∈ family, ∀ l ∈ family, k.promote l ∈ family)
    (hkinds : ∀ k ∈ kinds, k ∈ family) : promoteAll kinds ∈ family :=
  foldl_promote_mem hbool hclosed hkinds

theorem promote_promoteAll {k : Scalar} (hk : k ∈ kinds) :
    k.promote (promoteAll kinds) = promoteAll kinds :=
  (foldl_promote_above kinds bool).2 k hk

theorem promoteAll_least (hm : m ≠ f32) (hkinds : ∀ k ∈ kinds, k.promote m = m) :
    (promoteAll kinds).promote m = m :=
  foldl_promote_least hm (bool_promote m) hkinds

end Fold

-- Kinds among which the order decides: an `f32` takes in a `u16` as well as an `i8` or
-- `i16`, but not what these two are promoted to. With a wider kind among them all is `f64`
-- in any order.
def Contested (kinds : List Scalar) : Prop :=
  f32 ∈ kinds ∧ u16 ∈ kinds ∧ (i8 ∈ kinds ∨ i16 ∈ kinds) ∧ ∀ k ∈ kinds, k.promote f32 = f32

instance (kinds : List Scalar) : Decidable (Contested kinds) :=
  inferInstanceAs (Decidable (_ ∧ _))

variable {kinds kinds' : List Scalar}

theorem Contested.of_perm (h : kinds.Perm kinds') (hkinds : Contested kinds) :
    Contested kinds' := by
  unfold Contested at *
  simpa only [h.mem_iff] using hkinds

theorem mem_of_promote_f32 {k : Scalar} (h : k.promote f32 = f32) :
    k ∈ [bool, i8, i16, u8, u16, f32] := by
  revert h
  cases k <;> decide

-- Narrow integers without an `f32` among them do not become one.
theorem promoteAll_integers (hbound : ∀ k ∈ kinds, k.promote f32 = f32) (hnot : f32 ∉ kinds) :
    promoteAll kinds ∈ [bool, i8, i16, i32, u8, u16] := by
  refine promoteAll_mem (by decide) (by decide) fun k hk => ?_
  have hnarrow := mem_of_promote_f32 (hbound k hk)
  have hne : k ≠ f32 := ne_of_mem_of_not_mem hk hnot
  revert hnarrow hne
  cases k <;> decide

-- If one order of the kinds leads to `f32` and another one to something else, it is because
-- the other one promotes a signed kind with an unsigned one before it comes to an `f32`.
theorem contested_of_ne (hperm : kinds.Perm kinds') (hfloat : promoteAll kinds = f32)
    (hne : promoteAll kinds' ≠ f32) : Contested kinds ∧ promoteAll kinds' = f64 := by
  have hbound : ∀ k ∈ kinds, k.promote f32 = f32 := fun k hk => hfloat ▸ promote_promoteAll hk
  have hmember : f32 ∈ kinds := by
    by_contra hnot
    have hmem := promoteAll_integers hbound hnot
    rw [hfloat] at hmem
    exact absurd hmem (by decide)
  have habove : f32.promote (promoteAll kinds') = promoteAll kinds' :=
    promote_promoteAll (hperm.mem_iff.mp hmember)
  -- kinds that are closed under promotion, and no other than `f32` above it, give `f32`
  have hleaves : ∀ family : List Scalar, bool ∈ family →
      (∀ k ∈ family, ∀ l ∈ family, k.promote l ∈ family) →
      (∀ k ∈ family, f32.promote k = k → k = f32) → ∃ k ∈ kinds, k ∉ family := by
    intro family hbool hclosed honly
    by_contra! hall
    have hmem := promoteAll_mem hbool hclosed fun k hk => hall k (hperm.mem_iff.mpr hk)
    exact hne (honly _ hmem habove)
  refine ⟨⟨hmember, ?_, ?_, hbound⟩, ?_⟩
  · obtain ⟨k, hk, hout⟩ :=
      hleaves [bool, i8, i16, u8, f32] (by decide) (by decide) (by decide)
    have hnarrow := mem_of_promote_f32 (hbound k hk)
    revert hk hout hnarrow
    cases k <;> simp
  · obtain ⟨k, hk, hout⟩ := hleaves [bool, u8, u16, f32] (by decide) (by decide) (by decide)
    have hnarrow := mem_of_promote_f32 (hbound k hk)
    revert hk hout hnarrow
    cases k <;> simp_all
  · revert habove hne
    cases promoteAll kinds' <;> decide

-- The order of kinds decides between `f32` and `f64` at most, and only if they are contested.
theorem promoteAll_perm (hperm : kinds.Perm kinds')
    (hne : promoteAll kinds ≠ promoteAll kinds') :
    Contested kinds ∧ (promoteAll kinds = f32 ∧ promoteAll kinds' = f64 ∨
      promoteAll kinds = f64 ∧ promoteAll kinds' = f32) := by
  by_cases hfloat : promoteAll kinds = f32
  · have hne' : promoteAll kinds' ≠ f32 := fun h => hne (hfloat.trans h.symm)
    obtain ⟨hcontested, hdouble⟩ := contested_of_ne hperm hfloat hne'
    exact ⟨hcontested, .inl ⟨hfloat, hdouble⟩⟩
  · by_cases hfloat' : promoteAll kinds' = f32
    · obtain ⟨hcontested, hdouble⟩ := contested_of_ne hperm.symm hfloat' hfloat
      exact ⟨hcontested.of_perm hperm.symm, .inr ⟨hdouble, hfloat'⟩⟩
    · -- both are least above the same kinds
      have hle := promoteAll_least hfloat' fun k hk => promote_promoteAll (hperm.mem_iff.mp hk)
      have hge := promoteAll_least hfloat fun k hk => promote_promoteAll (hperm.mem_iff.mpr hk)
      rw [promote_comm, hle] at hge
      exact absurd hge.symm hne

-- Contested kinds are promoted either way: to `f32` if those come first, and to `f64` if
-- they come last.
theorem Contested.promoteAll_first (h : Contested kinds) :
    promoteAll (kinds.filter (· = f32) ++ kinds.filter (· ≠ f32)) = f32 := by
  obtain ⟨hmember, -, -, hbound⟩ := h
  have hfloat : f32 ∈ kinds.filter (· = f32) := by simpa using hmember
  have hfloats : promoteAll (kinds.filter (· = f32)) = f32 := by
    have hmem : promoteAll (kinds.filter (· = f32)) ∈ [bool, f32] := by
      refine promoteAll_mem (by decide) (by decide) fun k hk => ?_
      simp [of_decide_eq_true (List.mem_filter.mp hk).2]
    have habove := promote_promoteAll hfloat
    revert hmem habove
    cases promoteAll (kinds.filter (· = f32)) <;> decide
  unfold promoteAll at *
  rw [List.foldl_append, hfloats]
  exact foldl_promote_of_above fun k hk => hbound k (List.mem_of_mem_filter hk)

theorem Contested.promoteAll_last (h : Contested kinds) :
    promoteAll (kinds.filter (· ≠ f32) ++ kinds.filter (· = f32)) = f64 := by
  obtain ⟨hmember, hunsigned, hsigned, hbound⟩ := h
  have hfloat : f32 ∈ kinds.filter (· = f32) := by simpa using hmember
  have hothers : promoteAll (kinds.filter (· ≠ f32)) = i32 := by
    have hmem : promoteAll (kinds.filter (· ≠ f32)) ∈ [bool, i8, i16, i32, u8, u16] := by
      refine promoteAll_integers (fun k hk => hbound k (List.mem_of_mem_filter hk)) ?_
      simp
    have habove : ∀ k ∈ kinds, k ≠ f32 → k.promote (promoteAll (kinds.filter (· ≠ f32))) =
        promoteAll (kinds.filter (· ≠ f32)) := by
      intro k hk hne
      exact promote_promoteAll (by simp [hk, hne])
    have hunsigned := habove u16 hunsigned (by decide)
    have hsigned := hsigned.imp (habove i8 · (by decide)) (habove i16 · (by decide))
    revert hmem hunsigned hsigned
    cases promoteAll (kinds.filter (· ≠ f32)) <;> decide
  obtain ⟨hstart, hfloats⟩ := foldl_promote_above (kinds.filter (· = f32)) i32
  have hfloats := hfloats f32 hfloat
  unfold promoteAll at *
  rw [List.foldl_append, hothers]
  revert hstart hfloats
  cases (kinds.filter (· = f32)).foldl promote i32 <;> decide

end RankPoly.Scalar
