import RankPoly.Proofs.Ty.Parts

namespace RankPoly.Ty

section Equations

theorem combineWith_self (join : Scalar.Policy) (ty : Ty) : combineWith join ty ty = .ok ty := by
  unfold combineWith
  exact if_pos rfl

theorem combineWith_unknown_left (join : Scalar.Policy) (ty : Ty) :
    combineWith join .unknown ty = .ok ty := by
  unfold combineWith
  split
  · rename_i heq
    rw [heq]
  · rfl

theorem combineWith_unknown_right (join : Scalar.Policy) (ty : Ty) :
    combineWith join ty .unknown = .ok ty := by
  unfold combineWith
  split
  · rfl
  · cases ty <;> rfl

theorem combineLists_self (join : Scalar.Policy) (tys : List Ty) :
    combineLists join tys tys = .ok tys := by
  induction tys with
  | nil => rfl
  | cons first rest ih =>
      unfold combineLists
      rw [combineWith_self, ih]
      rfl

theorem combineFields_self (join : Scalar.Policy) (fields : List (String × Ty)) :
    combineFields join fields fields = .ok fields := by
  induction fields with
  | nil => rfl
  | cons first rest ih =>
      obtain ⟨name, ty⟩ := first
      unfold combineFields
      rw [combineWith_self, ih]
      rfl

-- Equal types join to themselves part by part too, so that for what has parts it does
-- not matter whether the types are equal.

theorem combineWith_tuple (join : Scalar.Policy) {xs ys : List Ty} (h : xs.length = ys.length) :
    combineWith join (.tuple xs) (.tuple ys) = (combineLists join xs ys).map .tuple := by
  by_cases heq : xs = ys
  · subst heq
    rw [combineWith_self, combineLists_self]
    rfl
  · have hne : Ty.tuple xs ≠ .tuple ys := by simpa using heq
    unfold combineWith
    rw [if_neg hne]
    exact if_pos h

theorem combineWith_struct (join : Scalar.Policy) {xs ys : List (String × Ty)}
    (h : NameMap.keys xs = NameMap.keys ys) :
    combineWith join (.struct xs) (.struct ys) = (combineFields join xs ys).map .struct := by
  by_cases heq : xs = ys
  · subst heq
    rw [combineWith_self, combineFields_self]
    rfl
  · have hne : Ty.struct xs ≠ .struct ys := by simpa using heq
    unfold combineWith
    rw [if_neg hne]
    exact if_pos h

theorem combineWith_slice (join : Scalar.Policy) (x y z x' y' z' : Ty) :
    combineWith join (.slice x y z) (.slice x' y' z') =
      (combineWith join x x').bind fun x => (combineWith join y y').bind fun y =>
        (combineWith join z z').map fun z => .slice x y z := by
  by_cases heq : Ty.slice x y z = .slice x' y' z'
  · cases heq
    simp only [combineWith_self]
    rfl
  · conv_lhs => unfold combineWith
    rw [if_neg heq]
    rfl

end Equations

-- What two types join to, by their forms. The types inside of them are joined in
-- turn.
inductive Joins : Ty → Ty → Ty → Prop where
  | same {ty : Ty} : Joins ty ty ty
  | left {ty : Ty} : Joins .unknown ty ty
  | right {ty : Ty} : Joins ty .unknown ty
  | scalar {k l : Scalar} : Joins (.scalar k) (.scalar l) (.scalar (k.promote l))
  | array {k l : Scalar} {n : Nat} : Joins (.array k n) (.array l n) (.ofRank (k.promote l) n)
  | tuple {xs ys zs : List Ty} : xs.length = ys.length →
      combineLists Scalar.promote xs ys = .ok zs → Joins (.tuple xs) (.tuple ys) (.tuple zs)
  | struct {xs ys zs : List (String × Ty)} : NameMap.keys xs = NameMap.keys ys →
      combineFields Scalar.promote xs ys = .ok zs → Joins (.struct xs) (.struct ys) (.struct zs)
  | slice {x y z x' y' z' x'' y'' z'' : Ty} : x.combine x' = .ok x'' → y.combine y' = .ok y'' →
      z.combine z' = .ok z'' → Joins (.slice x y z) (.slice x' y' z') (.slice x'' y'' z'')
  | closures {c d : Closure} :
      Joins (.closure c) (.closure d) (.closureSet (ClosureSet.insert d [c]).2)
  | closureSet {c : Closure} {ds : List Closure} :
      Joins (.closure c) (.closureSet ds) (.closureSet (ClosureSet.insert c ds).2)
  | setClosure {cs : List Closure} {d : Closure} :
      Joins (.closureSet cs) (.closure d) (.closureSet (ClosureSet.insert d cs).2)
  | sets {cs ds : List Closure} :
      Joins (.closureSet cs) (.closureSet ds) (.closureSet (ClosureSet.union cs ds))

-- A join that does not fail went one of these ways.
theorem joins_of_combine {a b c : Ty} (h : a.combine b = .ok c) : Joins a b c := by
  unfold combine at h
  unfold combineWith at h
  split at h
  · rename_i heq
    cases h
    exact heq ▸ .same
  · split at h
    · cases h
      exact .left
    · cases h
      exact .right
    · cases h
      exact .scalar
    · split at h
      · rename_i heq
        cases h
        exact heq ▸ .array
      · cases h
    · rename_i xs ys _
      split at h
      · rename_i hlength
        cases hzs : combineLists Scalar.promote xs ys <;> rw [hzs] at h <;> cases h
        exact .tuple hlength hzs
      · cases h
    · rename_i xs ys _
      split at h
      · rename_i hkeys
        cases hzs : combineFields Scalar.promote xs ys <;> rw [hzs] at h <;> cases h
        exact .struct hkeys hzs
      · cases h
    · rename_i x y z x' y' z' _
      cases hx : combineWith Scalar.promote x x' <;> rw [hx] at h
      · cases h
      cases hy : combineWith Scalar.promote y y' <;> rw [hy] at h
      · cases h
      cases hz : combineWith Scalar.promote z z' <;> rw [hz] at h
      · cases h
      cases h
      exact .slice hx hy hz
    · cases h
      exact .closures
    · cases h
      exact .closureSet
    · cases h
      exact .setClosure
    · cases h
      exact .sets
    · cases h

-- What is unknown adds nothing.
theorem combine_unknown_left (ty : Ty) : combine .unknown ty = .ok ty :=
  combineWith_unknown_left _ ty

theorem combine_unknown_right {ty joined : Ty} (h : ty.combine .unknown = .ok joined) :
    joined = ty := by
  cases joins_of_combine h <;> rfl

-- Lists that join do so from front to back.
theorem combineLists_cons {x y : Ty} {xs ys zs : List Ty}
    (h : combineLists Scalar.promote (x :: xs) (y :: ys) = .ok zs) :
    ∃ z rest, zs = z :: rest ∧ x.combine y = .ok z ∧
      combineLists Scalar.promote xs ys = .ok rest := by
  unfold combineLists at h
  cases hz : combineWith Scalar.promote x y <;> rw [hz] at h
  · cases h
  cases hrest : combineLists Scalar.promote xs ys <;> rw [hrest] at h <;> cases h
  exact ⟨_, _, rfl, hz, rfl⟩

theorem combineFields_cons {m n : String} {x y : Ty} {xs ys zs : List (String × Ty)}
    (h : combineFields Scalar.promote ((m, x) :: xs) ((n, y) :: ys) = .ok zs) :
    ∃ z rest, zs = (m, z) :: rest ∧ x.combine y = .ok z ∧
      combineFields Scalar.promote xs ys = .ok rest := by
  unfold combineFields at h
  cases hz : combineWith Scalar.promote x y <;> rw [hz] at h
  · cases h
  cases hrest : combineFields Scalar.promote xs ys <;> rw [hrest] at h <;> cases h
  exact ⟨_, _, rfl, hz, rfl⟩

namespace Stable

variable {p : Ty → Prop}

mutual

-- A join is made of what the joined types are made of.
theorem joins (hp : Stable p) : ∀ (a b c : Ty), Joins a b c → AllParts p a → AllParts p b →
    AllParts p c
  | _, _, _, .same, ha, _ => ha
  | _, _, _, .left, _, hb => hb
  | _, _, _, .right, ha, _ => ha
  | .scalar _, _, _, .scalar, _, _ => allParts_scalar.mpr (hp.scalar _)
  | .array _ _, _, _, .array, _, _ => hp.ofRank _ _
  | .tuple xs, .tuple ys, .tuple zs, .tuple _ h, ha, hb => by
      refine allParts_tuple.mpr ⟨hp.tuple zs, ?_⟩
      exact hp.combineLists xs ys zs h (allParts_tuple.mp ha).2 (allParts_tuple.mp hb).2
  | .struct xs, .struct ys, .struct zs, .struct _ h, ha, hb => by
      refine allParts_struct.mpr ⟨hp.struct zs, ?_⟩
      exact hp.combineFields xs ys zs h (allParts_struct.mp ha).2 (allParts_struct.mp hb).2
  | .slice x y z, .slice x' y' z', .slice x'' y'' z'', .slice hx hy hz, ha, hb => by
      obtain ⟨-, hax, hay, haz⟩ := allParts_slice.mp ha
      obtain ⟨-, hbx, hby, hbz⟩ := allParts_slice.mp hb
      refine allParts_slice.mpr ⟨hp.slice x'' y'' z'', ?_, ?_, ?_⟩
      · exact hp.joins x x' x'' (joins_of_combine hx) hax hbx
      · exact hp.joins y y' y'' (joins_of_combine hy) hay hby
      · exact hp.joins z z' z'' (joins_of_combine hz) haz hbz
  | .closure c, .closure d, _, .closures, ha, hb => by
      have hset : AllParts p (.closureSet [c]) := by
        refine allParts_closureSet.mpr ⟨hp.singleton c, ?_⟩
        simpa using (allParts_closure.mp ha).2
      exact hp.allParts_insert hset (allParts_closure.mp hb).2
  | .closure c, .closureSet ds, _, .closureSet, ha, hb =>
      hp.allParts_insert hb (allParts_closure.mp ha).2
  | .closureSet cs, .closure d, _, .setClosure, ha, hb =>
      hp.allParts_insert ha (allParts_closure.mp hb).2
  | .closureSet cs, .closureSet ds, _, .sets, ha, hb => hp.allParts_union ha hb
  termination_by structural a => a

theorem combineLists (hp : Stable p) : ∀ (xs ys zs : List Ty),
    Ty.combineLists Scalar.promote xs ys = .ok zs → (∀ x ∈ xs, AllParts p x) →
    (∀ y ∈ ys, AllParts p y) → ∀ z ∈ zs, AllParts p z
  | [], ys, zs, h, hxs, hys => by
      unfold Ty.combineLists at h
      cases h
      simp
  | x :: xs, [], zs, h, hxs, hys => by
      unfold Ty.combineLists at h
      cases h
      simp
  | x :: xs, y :: ys, zs, h, hxs, hys => by
      obtain ⟨hx, hxs⟩ := List.forall_mem_cons.mp hxs
      obtain ⟨hy, hys⟩ := List.forall_mem_cons.mp hys
      obtain ⟨z, rest, rfl, hz, hrest⟩ := combineLists_cons h
      refine List.forall_mem_cons.mpr ⟨?_, hp.combineLists xs ys rest hrest hxs hys⟩
      exact hp.joins x y z (joins_of_combine hz) hx hy
  termination_by structural xs => xs

theorem combineFields (hp : Stable p) : ∀ (xs ys zs : List (String × Ty)),
    Ty.combineFields Scalar.promote xs ys = .ok zs → (∀ x ∈ xs, AllParts p x.2) →
    (∀ y ∈ ys, AllParts p y.2) → ∀ z ∈ zs, AllParts p z.2
  | [], ys, zs, h, hxs, hys => by
      unfold Ty.combineFields at h
      cases h
      simp
  | x :: xs, [], zs, h, hxs, hys => by
      unfold Ty.combineFields at h
      cases h
      simp
  | (m, x) :: xs, (n, y) :: ys, zs, h, hxs, hys => by
      obtain ⟨hx, hxs⟩ := List.forall_mem_cons.mp hxs
      obtain ⟨hy, hys⟩ := List.forall_mem_cons.mp hys
      obtain ⟨z, rest, rfl, hz, hrest⟩ := combineFields_cons h
      refine List.forall_mem_cons.mpr ⟨?_, hp.combineFields xs ys rest hrest hxs hys⟩
      exact hp.joins x y z (joins_of_combine hz) hx hy
  termination_by structural xs => xs

end

theorem combine (hp : Stable p) {a b c : Ty} (h : a.combine b = .ok c) (ha : AllParts p a)
    (hb : AllParts p b) : AllParts p c :=
  hp.joins a b c (joins_of_combine h) ha hb

end Stable

end RankPoly.Ty
