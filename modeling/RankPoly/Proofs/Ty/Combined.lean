import RankPoly.Proofs.Ty.Shape

namespace RankPoly.Ty

open Scalar (Contested promoteAll)

mutual

theorem ordered_shape : ∀ ty : Ty, AllParts Ordered ty → AllParts Ordered ty.shape
  | .unknown, h => h
  | .scalar _, _ => allParts_scalar.mpr trivial
  | .array _ _, _ => allParts_array.mpr trivial
  | .tuple elems, h =>
      allParts_tuple.mpr ⟨trivial, ordered_shapeList elems (allParts_tuple.mp h).2⟩
  | .struct fields, h =>
      allParts_struct.mpr ⟨trivial, ordered_shapeFields fields (allParts_struct.mp h).2⟩
  | .closure _, h => h
  | .closureSet _, h => h
  | .slice start stop step, h => by
      obtain ⟨-, hstart, hstop, hstep⟩ := allParts_slice.mp h
      exact allParts_slice.mpr
        ⟨trivial, ordered_shape start hstart, ordered_shape stop hstop, ordered_shape step hstep⟩
  | .none, h => h
  termination_by structural ty => ty

theorem ordered_shapeList : ∀ tys : List Ty, (∀ ty ∈ tys, AllParts Ordered ty) →
    ∀ ty ∈ shapeList tys, AllParts Ordered ty
  | [], _ => nofun
  | first :: rest, h => by
      obtain ⟨hfirst, hrest⟩ := List.forall_mem_cons.mp h
      exact List.forall_mem_cons.mpr ⟨ordered_shape first hfirst, ordered_shapeList rest hrest⟩
  termination_by structural tys => tys

theorem ordered_shapeFields : ∀ fields : List (String × Ty),
    (∀ field ∈ fields, AllParts Ordered field.2) →
    ∀ field ∈ shapeFields fields, AllParts Ordered field.2
  | [], _ => nofun
  | (_, first) :: rest, h => by
      obtain ⟨hfirst, hrest⟩ := List.forall_mem_cons.mp h
      exact List.forall_mem_cons.mpr ⟨ordered_shape first hfirst, ordered_shapeFields rest hrest⟩
  termination_by structural fields => fields

end

section Fold

variable {tys : List Ty} {start joined bound : Ty}

theorem foldlM_combine_cons {first : Ty} {rest : List Ty}
    (h : (first :: rest).foldlM combine start = .ok joined) :
    ∃ next, start.combine first = .ok next ∧ rest.foldlM combine next = .ok joined := by
  rw [List.foldlM_cons] at h
  cases hnext : start.combine first with
  | error error =>
      rw [hnext] at h
      cases h
  | ok next =>
      rw [hnext] at h
      exact ⟨next, rfl, h⟩

theorem below_foldlM_combine (h : tys.foldlM combine start = .ok joined) :
    Below start joined ∧ ∀ ty ∈ tys, Below ty joined := by
  induction tys generalizing start with
  | nil =>
      cases h
      exact ⟨below_refl joined, nofun⟩
  | cons first rest ih =>
      obtain ⟨next, hnext, hrest⟩ := foldlM_combine_cons h
      obtain ⟨hstart, hfirst⟩ := below_combine hnext
      obtain ⟨hjoined, hrest⟩ := ih hrest
      exact ⟨hstart.trans hjoined, List.forall_mem_cons.mpr ⟨hfirst.trans hjoined, hrest⟩⟩

theorem kindAt_foldlM_combine (path : List Nat) (h : tys.foldlM combine start = .ok joined) :
    kindAt path joined = (tys.map (kindAt path)).foldl Scalar.promote (kindAt path start) := by
  induction tys generalizing start with
  | nil =>
      cases h
      rfl
  | cons first rest ih =>
      obtain ⟨next, hnext, hrest⟩ := foldlM_combine_cons h
      rw [ih hrest, kindAt_combine hnext]
      rfl

theorem Stable.foldlM_combine {p : Ty → Prop} (hp : Stable p)
    (h : tys.foldlM Ty.combine start = .ok joined) (hstart : AllParts p start)
    (htys : ∀ ty ∈ tys, AllParts p ty) : AllParts p joined := by
  induction tys generalizing start with
  | nil =>
      cases h
      exact hstart
  | cons first rest ih =>
      obtain ⟨next, hnext, hrest⟩ := foldlM_combine_cons h
      obtain ⟨hfirst, htys⟩ := List.forall_mem_cons.mp htys
      exact ih hrest (hp.combine hnext hstart hfirst) htys

-- Types whose shapes have an upper bound are all joined.
theorem exists_foldlM_combine (hstart : AllParts Regular start)
    (htys : ∀ ty ∈ tys, AllParts Regular ty) (hbound : Below start.shape bound)
    (hbounds : ∀ ty ∈ tys, Below ty.shape bound) :
    ∃ joined, tys.foldlM combine start = .ok joined ∧ Below joined.shape bound := by
  induction tys generalizing start with
  | nil => exact ⟨start, rfl, hbound⟩
  | cons first rest ih =>
      obtain ⟨hfirst, htys⟩ := List.forall_mem_cons.mp htys
      obtain ⟨hbelow, hbounds⟩ := List.forall_mem_cons.mp hbounds
      obtain ⟨next, hnext, hshape⟩ := exists_combine start first hstart hfirst hbound hbelow
      rw [List.foldlM_cons, hnext]
      exact ih (stable_regular.combine hnext hstart hfirst) htys hshape hbounds

end Fold

-- Types of one shape that differ at most in kinds that are contested among the types that
-- both are joined from, and there are the two kinds that come of it.
structure Agree (tys : List Ty) (a b : Ty) : Prop where
  shape : a.shape = b.shape
  kinds : ∀ path, kindAt path a ≠ kindAt path b → Contested (tys.map (kindAt path)) ∧
    (kindAt path a = .f32 ∧ kindAt path b = .f64 ∨ kindAt path a = .f64 ∧ kindAt path b = .f32)

-- Results that are both types which agree, or both errors.
def ResultsAgree {ε ε' : Type} (tys : List Ty) : Except ε Ty → Except ε' Ty → Prop
  | .ok a, .ok b => Agree tys a b
  | .error _, .error _ => True
  | _, _ => False

namespace ResultsAgree

variable {ε ε' δ δ' : Type} {tys : List Ty} {result : Except ε Ty} {result' : Except ε' Ty}

theorem mapError (h : ResultsAgree tys result result') (f : ε → δ) (g : ε' → δ') :
    ResultsAgree tys (result.mapError f) (result'.mapError g) := by
  cases result <;> cases result' <;> exact h

theorem bind {k : Ty → Except ε Ty} {k' : Ty → Except ε' Ty} (h : ResultsAgree tys result result')
    (hk : ∀ a b, Agree tys a b → ResultsAgree tys (k a) (k' b)) :
    ResultsAgree tys (result.bind k) (result'.bind k') := by
  cases result <;> cases result'
  · exact h
  · exact h.elim
  · exact h.elim
  · exact hk _ _ h

end ResultsAgree

section IncreaseRank

variable {tys : List Ty} {a b : Ty}

theorem shape_ofRank (elem : Scalar) (rank : Nat) :
    (ofRank elem rank).shape = ofRank .bool rank := by
  unfold ofRank
  split <;> rfl

theorem shape_increaseRank (a : Ty) (count : Nat) :
    (a.increaseRank count).toOption.map Ty.shape = (a.shape.increaseRank count).toOption := by
  unfold increaseRank
  by_cases hcount : count = 0
  · simp [hcount, Except.toOption]
  · cases a <;> simp [hcount, Ty.shape, shape_ofRank, Except.toOption]

theorem kindAt_increaseRank {count : Nat} (h : a.increaseRank count = .ok b) (path : List Nat) :
    kindAt path b = kindAt path a := by
  unfold increaseRank at h
  split at h
  · cases h
    rfl
  · split at h <;> cases h
    all_goals
      cases path with
      | nil => exact kind_ofRank _ _
      | cons i path =>
          unfold kindAt
          rw [children_ofRank]
          rfl

theorem Agree.increaseRank (h : Agree tys a b) (count : Nat) :
    ResultsAgree tys (a.increaseRank count) (b.increaseRank count) := by
  have hshape : (a.increaseRank count).toOption.map Ty.shape =
      (b.increaseRank count).toOption.map Ty.shape := by
    rw [shape_increaseRank, shape_increaseRank, h.shape]
  cases ha : a.increaseRank count <;> cases hb : b.increaseRank count <;> rw [ha, hb] at hshape
  · trivial
  · cases hshape
  · cases hshape
  · refine ⟨Option.some.inj hshape, fun path hne => ?_⟩
    rw [kindAt_increaseRank ha, kindAt_increaseRank hb] at *
    exact h.kinds path hne

end IncreaseRank

section CombineAll

variable {tys tys' : List Ty} {joined : Ty}

theorem kindAt_combineAll (path : List Nat) (h : combineAll tys = .ok joined) :
    kindAt path joined = promoteAll (tys.map (kindAt path)) := by
  rw [kindAt_foldlM_combine path h, kindAt_unknown]
  rfl

theorem exists_combineAll_of_perm (hperm : tys.Perm tys') (htys : ∀ ty ∈ tys, AllParts Regular ty)
    (h : combineAll tys = .ok joined) :
    ∃ joined', combineAll tys' = .ok joined' ∧ Below joined'.shape joined.shape := by
  refine exists_foldlM_combine (allParts_unknown.mpr trivial) ?_ .unknown ?_
  · exact fun ty hty => htys ty (hperm.mem_iff.mpr hty)
  · exact fun ty hty => ((below_foldlM_combine h).2 ty (hperm.mem_iff.mpr hty)).shape

-- Joined in another order, types fail to join again, or have joins that agree.
theorem combineAll_perm (hperm : tys.Perm tys') (htys : ∀ ty ∈ tys, AllParts Regular ty) :
    ResultsAgree tys (combineAll tys) (combineAll tys') := by
  have htys' : ∀ ty ∈ tys', AllParts Regular ty := fun ty hty => htys ty (hperm.mem_iff.mpr hty)
  have hunknown : AllParts Regular .unknown := allParts_unknown.mpr trivial
  cases h : combineAll tys with
  | error error =>
      cases h' : combineAll tys' with
      | error error' => trivial
      | ok joined' =>
          obtain ⟨joined, hjoined, -⟩ := exists_combineAll_of_perm hperm.symm htys' h'
          cases h.symm.trans hjoined
  | ok joined =>
      obtain ⟨joined', h', hle'⟩ := exists_combineAll_of_perm hperm htys h
      obtain ⟨other, hother, hle⟩ := exists_combineAll_of_perm hperm.symm htys' h'
      cases h.symm.trans hother
      rw [h']
      have hordered := (stable_regular.foldlM_combine h hunknown htys).imp fun _ => Regular.ordered
      have hordered' :=
        (stable_regular.foldlM_combine h' hunknown htys').imp fun _ => Regular.ordered
      refine ⟨hle.antisymm hle' (ordered_shape _ hordered) (ordered_shape _ hordered'), ?_⟩
      intro path hne
      rw [kindAt_combineAll path h, kindAt_combineAll path h'] at hne ⊢
      exact Scalar.promoteAll_perm (hperm.map _) hne

-- All orders have the same join if and only if no kind is contested. Otherwise the types
-- that have an `f32` there can come first, or last.
theorem combineAll_perm_eq_iff (htys : ∀ ty ∈ tys, AllParts Regular ty)
    (h : combineAll tys = .ok joined) :
    (∀ tys', tys.Perm tys' → combineAll tys' = .ok joined) ↔
      ∀ path, ¬Contested (tys.map (kindAt path)) := by
  constructor
  · intro hall path hcontested
    have hkind : ∀ tys', tys.Perm tys' →
        promoteAll (tys'.map (kindAt path)) = kindAt path joined :=
      fun tys' hperm => (kindAt_combineAll path (hall tys' hperm)).symm
    have hperm := (List.filter_append_perm (kindAt path · = .f32) tys).symm
    have hfirst := hkind _ hperm
    have hlast := hkind _ (hperm.trans List.perm_append_comm)
    have hfloat := hcontested.promoteAll_first
    have hdouble := hcontested.promoteAll_last
    simp only [List.filter_map, ← List.map_append, Function.comp_def, ne_eq, decide_not]
      at hfloat hdouble
    have heq : Scalar.f32 = .f64 := by
      rw [← hfloat, hfirst, ← hlast, hdouble]
    cases heq
  · intro hnone tys' hperm
    obtain ⟨joined', h', -⟩ := exists_combineAll_of_perm hperm htys h
    have hagree := combineAll_perm hperm htys
    rw [h, h'] at hagree
    have heq : joined = joined' := by
      refine eq_of_shape joined joined' hagree.shape fun path => ?_
      by_contra hne
      exact hnone path (hagree.kinds path hne).1
    rw [h', heq]

end CombineAll

end RankPoly.Ty
