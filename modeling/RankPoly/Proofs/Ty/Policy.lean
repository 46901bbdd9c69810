import RankPoly.Proofs.Ty.Combined

namespace RankPoly.Ty

section Callables

-- The closures and sets of closures that a type is made of, from left to right, with those
-- that closures have captured.
def callables (ty : Ty) : List Ty :=
  ty.parts.filter isCallable

mutual

-- A shape is made of the same closures as the type.
theorem callables_shape : ∀ ty : Ty, ty.shape.callables = ty.callables
  | .unknown => rfl
  | .scalar _ => rfl
  | .array _ _ => rfl
  | .tuple elems => callables_shapeList elems
  | .struct fields => callables_shapeFields fields
  | .closure _ => rfl
  | .closureSet _ => rfl
  | .slice start stop step => by
      change (parts start.shape ++ parts stop.shape ++ parts step.shape).filter isCallable =
        (parts start ++ parts stop ++ parts step).filter isCallable
      simp only [List.filter_append]
      exact congrArg₂ (· ++ ·)
        (congrArg₂ (· ++ ·) (callables_shape start) (callables_shape stop)) (callables_shape step)
  | .none => rfl
  termination_by structural ty => ty

theorem callables_shapeList : ∀ tys : List Ty,
    (partsList (shapeList tys)).filter isCallable = (partsList tys).filter isCallable
  | [] => rfl
  | first :: rest => by
      change (parts first.shape ++ partsList (shapeList rest)).filter isCallable =
        (parts first ++ partsList rest).filter isCallable
      simp only [List.filter_append]
      exact congrArg₂ (· ++ ·) (callables_shape first) (callables_shapeList rest)
  termination_by structural tys => tys

theorem callables_shapeFields : ∀ fields : List (String × Ty),
    (partsFields (shapeFields fields)).filter isCallable =
      (partsFields fields).filter isCallable
  | [] => rfl
  | (_, first) :: rest => by
      change (parts first.shape ++ partsFields (shapeFields rest)).filter isCallable =
        (parts first ++ partsFields rest).filter isCallable
      simp only [List.filter_append]
      exact congrArg₂ (· ++ ·) (callables_shape first) (callables_shapeFields rest)
  termination_by structural fields => fields

end

end Callables

section Policies

variable (p q : Scalar.Policy)

-- Results that look alike through `view` are one error, or values that look alike.
theorem cases_of_map_eq {ε α β : Type} {view : α → β} {r r' : Except ε α}
    (h : r.map view = r'.map view) :
    (∃ error, r = .error error ∧ r' = .error error) ∨
      ∃ x x', r = .ok x ∧ r' = .ok x' ∧ view x = view x' := by
  cases r with
  | error error =>
      cases r' <;> cases h
      exact Or.inl ⟨error, rfl, rfl⟩
  | ok x =>
      cases r' with
      | error error => cases h
      | ok x' => exact Or.inr ⟨x, x', rfl, rfl, Except.ok.inj h⟩

mutual

-- What scalar kinds are joined to does not show in the shape of a join, nor in whether there
-- is one. The types that are compared on the way are the given ones, never results of the
-- policy.
theorem shape_combineWith : ∀ a b : Ty,
    (a.combineWith p b).map shape = (a.combineWith q b).map shape
  | .unknown, b => by
      rw [combineWith_unknown_left, combineWith_unknown_left]
  | .scalar k, b => by
      unfold combineWith
      split
      · rfl
      · cases b <;> rfl
  | .array k m, b => by
      unfold combineWith
      split
      · rfl
      · cases b with
        | array l n =>
            by_cases hrank : m = n
            · simp only [if_pos hrank, Except.map, shape_ofRank]
            · simp only [if_neg hrank]
        | _ => rfl
  | .tuple xs, b => by
      cases b with
      | tuple ys =>
          by_cases hlength : xs.length = ys.length
          · rw [combineWith_tuple p hlength, combineWith_tuple q hlength]
            obtain ⟨error, h, h'⟩ | ⟨zs, zs', h, h', hshape⟩ :=
              cases_of_map_eq (shape_combineLists xs ys)
            · rw [h, h']
            · rw [h, h']
              exact congrArg (Except.ok ∘ tuple) hshape
          · unfold combineWith
            split
            · rfl
            · simp only [if_neg hlength]
      | _ => rfl
  | .struct xs, b => by
      cases b with
      | struct ys =>
          by_cases hkeys : NameMap.keys xs = NameMap.keys ys
          · rw [combineWith_struct p hkeys, combineWith_struct q hkeys]
            obtain ⟨error, h, h'⟩ | ⟨zs, zs', h, h', hshape⟩ :=
              cases_of_map_eq (shape_combineFields xs ys)
            · rw [h, h']
            · rw [h, h']
              exact congrArg (Except.ok ∘ struct) hshape
          · unfold combineWith
            split
            · rfl
            · simp only [if_neg hkeys]
      | _ => rfl
  | .closure c, b => by
      unfold combineWith
      split
      · rfl
      · cases b <;> rfl
  | .closureSet cs, b => by
      unfold combineWith
      split
      · rfl
      · cases b <;> rfl
  | .slice x y z, b => by
      cases b with
      | slice x' y' z' =>
          rw [combineWith_slice, combineWith_slice]
          obtain ⟨error, h, h'⟩ | ⟨u, u', h, h', hx⟩ := cases_of_map_eq (shape_combineWith x x') <;>
            rw [h, h']
          · rfl
          obtain ⟨error, h, h'⟩ | ⟨v, v', h, h', hy⟩ := cases_of_map_eq (shape_combineWith y y') <;>
            simp only [Except.bind, h, h']
          obtain ⟨error, h, h'⟩ | ⟨w, w', h, h', hz⟩ := cases_of_map_eq (shape_combineWith z z') <;>
            simp only [Except.map, h, h']
          simp only [shape, hx, hy, hz]
      | _ => rfl
  | .none, b => by
      cases b <;> rfl
  termination_by structural a => a

theorem shape_combineLists : ∀ xs ys : List Ty,
    (combineLists p xs ys).map shapeList = (combineLists q xs ys).map shapeList
  | [], _ => rfl
  | _ :: _, [] => rfl
  | x :: xs, y :: ys => by
      unfold combineLists
      obtain ⟨error, h, h'⟩ | ⟨z, z', h, h', hfirst⟩ := cases_of_map_eq (shape_combineWith x y) <;>
        rw [h, h']
      · rfl
      obtain ⟨error, h, h'⟩ | ⟨zs, zs', h, h', hrest⟩ :=
        cases_of_map_eq (shape_combineLists xs ys) <;> rw [h, h']
      · rfl
      exact congrArg Except.ok (congrArg₂ List.cons hfirst hrest)
  termination_by structural xs => xs

theorem shape_combineFields : ∀ xs ys : List (String × Ty),
    (combineFields p xs ys).map shapeFields = (combineFields q xs ys).map shapeFields
  | [], _ => rfl
  | _ :: _, [] => rfl
  | (name, x) :: xs, (_, y) :: ys => by
      unfold combineFields
      obtain ⟨error, h, h'⟩ | ⟨z, z', h, h', hfirst⟩ := cases_of_map_eq (shape_combineWith x y) <;>
        rw [h, h']
      · rfl
      obtain ⟨error, h, h'⟩ | ⟨zs, zs', h, h', hrest⟩ :=
        cases_of_map_eq (shape_combineFields xs ys) <;> rw [h, h']
      · rfl
      exact congrArg Except.ok (congrArg₂ List.cons (congrArg (name, ·) hfirst) hrest)
  termination_by structural xs => xs

end

end Policies

section Conflicts

variable {join : Scalar.Policy}

mutual

-- A join fails by two types that do not fit, and in no other way.
theorem conflict_of_combineWith : ∀ (a b : Ty) {error : TyError},
    a.combineWith join b = .error error → ∃ x y, error = .conflict x y
  | .unknown, b, _, h => by
      rw [combineWith_unknown_left] at h
      cases h
  | .scalar k, b, _, h => by
      unfold combineWith at h
      split at h
      · cases h
      · cases b <;> cases h <;> exact ⟨_, _, rfl⟩
  | .array k m, b, _, h => by
      unfold combineWith at h
      split at h
      · cases h
      · cases b with
        | array l n =>
            simp only at h
            split at h <;> cases h
            exact ⟨_, _, rfl⟩
        | _ => cases h <;> exact ⟨_, _, rfl⟩
  | .tuple xs, b, error, h => by
      cases b with
      | tuple ys =>
          by_cases hlength : xs.length = ys.length
          · rw [combineWith_tuple join hlength] at h
            cases hzs : combineLists join xs ys <;> rw [hzs] at h <;> cases h
            exact conflict_of_combineLists xs ys hzs
          · unfold combineWith at h
            split at h
            · cases h
            · simp only [if_neg hlength] at h
              cases h
              exact ⟨_, _, rfl⟩
      | _ => cases h <;> exact ⟨_, _, rfl⟩
  | .struct xs, b, error, h => by
      cases b with
      | struct ys =>
          by_cases hkeys : NameMap.keys xs = NameMap.keys ys
          · rw [combineWith_struct join hkeys] at h
            cases hzs : combineFields join xs ys <;> rw [hzs] at h <;> cases h
            exact conflict_of_combineFields xs ys hzs
          · unfold combineWith at h
            split at h
            · cases h
            · simp only [if_neg hkeys] at h
              cases h
              exact ⟨_, _, rfl⟩
      | _ => cases h <;> exact ⟨_, _, rfl⟩
  | .closure c, b, _, h => by
      unfold combineWith at h
      split at h
      · cases h
      · cases b <;> cases h <;> exact ⟨_, _, rfl⟩
  | .closureSet cs, b, _, h => by
      unfold combineWith at h
      split at h
      · cases h
      · cases b <;> cases h <;> exact ⟨_, _, rfl⟩
  | .slice x y z, b, error, h => by
      cases b with
      | slice x' y' z' =>
          rw [combineWith_slice] at h
          cases hx : combineWith join x x' <;> rw [hx] at h
          · cases h
            exact conflict_of_combineWith x x' hx
          cases hy : combineWith join y y' <;> simp only [Except.bind, hy] at h
          · cases h
            exact conflict_of_combineWith y y' hy
          cases hz : combineWith join z z' <;> simp only [Except.map, hz] at h
          · cases h
            exact conflict_of_combineWith z z' hz
          cases h
      | _ => cases h <;> exact ⟨_, _, rfl⟩
  | .none, b, _, h => by
      cases b <;> cases h <;> exact ⟨_, _, rfl⟩
  termination_by structural a => a

theorem conflict_of_combineLists : ∀ (xs ys : List Ty) {error : TyError},
    combineLists join xs ys = .error error → ∃ x y, error = .conflict x y
  | [], _, _, h => nomatch h
  | _ :: _, [], _, h => nomatch h
  | x :: xs, y :: ys, _, h => by
      unfold combineLists at h
      cases hz : combineWith join x y <;> rw [hz] at h
      · cases h
        exact conflict_of_combineWith x y hz
      cases hzs : combineLists join xs ys <;> rw [hzs] at h <;> cases h
      exact conflict_of_combineLists xs ys hzs
  termination_by structural xs => xs

theorem conflict_of_combineFields : ∀ (xs ys : List (String × Ty)) {error : TyError},
    combineFields join xs ys = .error error → ∃ x y, error = .conflict x y
  | [], _, _, h => nomatch h
  | _ :: _, [], _, h => nomatch h
  | (_, x) :: xs, (_, y) :: ys, _, h => by
      unfold combineFields at h
      cases hz : combineWith join x y <;> rw [hz] at h
      · cases h
        exact conflict_of_combineWith x y hz
      cases hzs : combineFields join xs ys <;> rw [hzs] at h <;> cases h
      exact conflict_of_combineFields xs ys hzs
  termination_by structural xs => xs

end

end Conflicts

-- Two policies differ in the scalar kinds that they lead to and in nothing else. Either both
-- joins fail, by the same conflict, or none does, and then the results have the same shape and
-- are made of the same closures.
theorem combineWith_policies (p q : Scalar.Policy) (a b : Ty) :
    (∃ x y, a.combineWith p b = .error (.conflict x y) ∧
        a.combineWith q b = .error (.conflict x y)) ∨
      ∃ c d, a.combineWith p b = .ok c ∧ a.combineWith q b = .ok d ∧ c.shape = d.shape ∧
        c.callables = d.callables := by
  obtain ⟨error, hp, hq⟩ | ⟨c, d, hc, hd, hshape⟩ := cases_of_map_eq (shape_combineWith p q a b)
  · obtain ⟨x, y, rfl⟩ := conflict_of_combineWith a b hp
    exact Or.inl ⟨x, y, hp, hq⟩
  · refine Or.inr ⟨c, d, hc, hd, hshape, ?_⟩
    rw [← callables_shape c, ← callables_shape d, hshape]

end RankPoly.Ty
