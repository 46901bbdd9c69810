import RankPoly.Proofs.Ty.Order
import RankPoly.Ty.ClosureSet

namespace RankPoly.ClosureSet

-- The members stand in strictly increasing order, so none of them stands twice.
def Sorted (set : ClosureSet) : Prop :=
  set.Pairwise fun c d => compare c d = .lt

instance (set : ClosureSet) : Decidable set.Sorted :=
  inferInstanceAs (Decidable (set.Pairwise _))

variable {set set' : ClosureSet} {closure member : Closure}

theorem sorted_singleton (closure : Closure) : Sorted [closure] :=
  List.pairwise_singleton _ _

-- The members of a set after one is put in. No order of the members is needed
-- for it.
theorem mem_insert : member ∈ (insert closure set).2 ↔ member = closure ∨ member ∈ set := by
  induction set with
  | nil => simp [insert]
  | cons first rest ih =>
      simp only [insert]
      split
      · simp
      · rename_i heq
        cases Std.compare_eq_iff_eq.mp heq
        simp
      · simp only [List.mem_cons, ih]
        tauto

theorem forall_mem_insert {p : Closure → Prop} :
    (∀ member ∈ (insert closure set).2, p member) ↔ p closure ∧ ∀ member ∈ set, p member := by
  simp only [mem_insert, forall_eq_or_imp]

theorem insert_ne_nil : (insert closure set).2 ≠ [] := by
  intro h
  have hmem : closure ∈ (insert closure set).2 := mem_insert.mpr (Or.inl rfl)
  rw [h] at hmem
  cases hmem

theorem Sorted.insert (hset : set.Sorted) (closure : Closure) :
    Sorted (ClosureSet.insert closure set).2 := by
  unfold Sorted at *
  induction set with
  | nil => exact List.pairwise_singleton _ _
  | cons first rest ih =>
      obtain ⟨hfirst, hrest⟩ := List.pairwise_cons.mp hset
      simp only [ClosureSet.insert]
      split
      · rename_i hlt
        refine List.pairwise_cons.mpr ⟨fun member hmem => ?_, hset⟩
        rcases List.mem_cons.mp hmem with rfl | hmem
        · exact hlt
        · exact Std.TransCmp.lt_trans hlt (hfirst member hmem)
      · exact hset
      · rename_i hgt
        have hlt := Std.OrientedCmp.lt_of_gt hgt
        exact List.pairwise_cons.mpr ⟨forall_mem_insert.mpr ⟨hlt, hfirst⟩, ih hrest⟩

theorem compare_ne_lt (closure : Closure) : compare closure closure ≠ .lt := by
  have hself : compare closure closure = .eq := Std.ReflCmp.compare_self
  rw [hself]
  nofun

theorem Sorted.not_mem_rest {first : Closure} (h : Sorted (first :: set)) : first ∉ set :=
  fun hmem => compare_ne_lt first (List.rel_of_pairwise_cons h hmem)

-- What all members of the other set have to stand behind, stands first in it.
theorem Sorted.not_lt_first {first first' : Closure} (h : Sorted (first' :: set'))
    (hmem : first ∈ first' :: set') : compare first first' ≠ .lt := by
  intro hlt
  rcases List.mem_cons.mp hmem with rfl | hmem
  · exact compare_ne_lt _ hlt
  · exact compare_ne_lt _ (Std.TransCmp.lt_trans hlt (List.rel_of_pairwise_cons h hmem))

-- Sets are told apart by their members.
theorem Sorted.ext (hset : set.Sorted) (hset' : set'.Sorted)
    (hmem : ∀ member, member ∈ set ↔ member ∈ set') : set = set' := by
  induction set generalizing set' with
  | nil =>
      symm
      exact List.eq_nil_iff_forall_not_mem.mpr fun member h => nomatch (hmem member).mpr h
  | cons first rest ih =>
      cases set' with
      | nil => exact nomatch (hmem first).mp List.mem_cons_self
      | cons first' rest' =>
          have hfirst : first = first' := by
            have hnot := hset'.not_lt_first ((hmem first).mp List.mem_cons_self)
            have hnot' := hset.not_lt_first ((hmem first').mpr List.mem_cons_self)
            cases hcmp : compare first first' with
            | lt => exact (hnot hcmp).elim
            | eq => exact Std.compare_eq_iff_eq.mp hcmp
            | gt => exact (hnot' (Std.OrientedCmp.lt_of_gt hcmp)).elim
          subst hfirst
          have hrest : rest = rest' := by
            refine ih (List.Pairwise.of_cons hset) (List.Pairwise.of_cons hset') fun member => ?_
            by_cases heq : member = first
            · subst heq
              exact iff_of_false hset.not_mem_rest hset'.not_mem_rest
            · simpa [heq] using hmem member
          rw [hrest]

-- A member is found, as the search stops only at members that it stands before.
theorem Sorted.contains_iff (hset : set.Sorted) : contains closure set = true ↔ closure ∈ set := by
  induction set with
  | nil => simp [contains]
  | cons first rest ih =>
      simp only [contains]
      split
      · rename_i hlt
        exact iff_of_false nofun fun hmem => hset.not_lt_first hmem hlt
      · rename_i heq
        simp [Std.compare_eq_iff_eq.mp heq]
      · rename_i hgt
        have hne : closure ≠ first := by
          rintro rfl
          exact compare_ne_lt closure (Std.OrientedCmp.lt_of_gt hgt)
        rw [ih (List.Pairwise.of_cons hset), List.mem_cons, or_iff_right hne]

-- The flag of an insertion tells members from others just as a search does.
theorem insert_fst (closure : Closure) (set : ClosureSet) :
    (insert closure set).1 = !contains closure set := by
  induction set with
  | nil => rfl
  | cons first rest ih =>
      simp only [insert, contains]
      split
      · rfl
      · rfl
      · exact ih

theorem Sorted.insert_fst_iff (hset : set.Sorted) :
    (ClosureSet.insert closure set).1 = true ↔ closure ∉ set := by
  rw [insert_fst, Bool.not_eq_true', Bool.eq_false_iff, ne_eq, hset.contains_iff]

theorem mem_union : ∀ {set' : ClosureSet} {set : ClosureSet},
    member ∈ union set set' ↔ member ∈ set ∨ member ∈ set'
  | [], set => by simp [union]
  | first :: rest, set => by
      change member ∈ union (insert first set).2 rest ↔ _
      rw [mem_union, mem_insert, List.mem_cons]
      tauto

theorem forall_mem_union {p : Closure → Prop} :
    (∀ member ∈ union set set', p member) ↔
      (∀ member ∈ set, p member) ∧ ∀ member ∈ set', p member := by
  simp only [mem_union, or_imp, forall_and]

theorem Sorted.union : ∀ {set' set : ClosureSet}, set.Sorted → Sorted (ClosureSet.union set set')
  | [], _, hset => hset
  | first :: rest, set, hset => by
      change Sorted (ClosureSet.union (ClosureSet.insert first set).2 rest)
      exact Sorted.union (hset.insert first)

theorem Sorted.insert_of_mem (hset : set.Sorted) (hmem : closure ∈ set) :
    (ClosureSet.insert closure set).2 = set := by
  refine (hset.insert closure).ext hset fun member => ?_
  rw [mem_insert]
  exact ⟨by rintro (rfl | h) <;> assumption, Or.inr⟩

theorem Sorted.union_of_subset (hset : set.Sorted) (hset' : set'.Sorted) (hsub : set ⊆ set') :
    ClosureSet.union set set' = set' := by
  refine hset.union.ext hset' fun member => ?_
  rw [mem_union]
  exact ⟨by rintro (h | h); exacts [hsub h, h], Or.inr⟩

end RankPoly.ClosureSet
