import RankPoly.Proofs.Ty.Below

namespace RankPoly

namespace Scalar

-- Which of two kinds comes first makes no difference.
def Policy.Commutative (join : Policy) : Prop :=
  ∀ k l, join k l = join l k

theorem promote_comm : promote.Commutative := by
  intro k l
  have h : ∀ k ∈ Scalar.all, ∀ l ∈ Scalar.all, k.promote l = l.promote k := by
    decide +kernel
  exact h k k.mem_all l l.mem_all

end Scalar

namespace TyError

-- The same conflict, met from the other side.
def mirror : TyError → TyError
  | .conflict lhs rhs => .conflict rhs lhs
  | error => error

theorem mirror_mirror (error : TyError) : error.mirror.mirror = error := by
  cases error <;> rfl

end TyError

namespace ClosureSet

variable {set set' : ClosureSet}

theorem Sorted.union_comm (hset : set.Sorted) (hset' : set'.Sorted) :
    ClosureSet.union set set' = ClosureSet.union set' set := by
  refine hset.union.ext hset'.union fun member => ?_
  rw [mem_union, mem_union]
  exact or_comm

theorem insert_singleton_comm (c d : Closure) : (insert c [d]).2 = (insert d [c]).2 := by
  refine ((sorted_singleton d).insert c).ext ((sorted_singleton c).insert d) fun member => ?_
  simp only [mem_insert, List.mem_singleton]
  exact or_comm

end ClosureSet

namespace Ty

-- A type whose set of closures has them in their order. All sets are like this that
-- joins give.
def Ordered : Ty → Prop
  | .closureSet members => ClosureSet.Sorted members
  | _ => True

instance : DecidablePred Ordered
  | .closureSet members => inferInstanceAs (Decidable (ClosureSet.Sorted members))
  | .unknown | .scalar _ | .array .. | .tuple _ | .struct _ | .closure _ | .slice .. | .none =>
    inferInstanceAs (Decidable True)

theorem stable_ordered : Stable Ordered where
  scalar _ := trivial
  array _ _ _ := trivial
  tuple _ := trivial
  struct _ := trivial
  closure _ := trivial
  slice _ _ _ := trivial
  none := trivial
  empty _ := trivial
  singleton member := ClosureSet.sorted_singleton member
  insert member h := h.insert member

theorem Proper.ordered {ty : Ty} (h : Proper ty) : Ordered ty := by
  cases ty with
  | closureSet members => exact h.2
  | _ => trivial

section Mirror

variable {join : Scalar.Policy}

-- Only types that differ have to be looked at.
private theorem mirror_of_ne {a b : Ty}
    (h : a ≠ b → combineWith join b a = (combineWith join a b).mapError TyError.mirror) :
    combineWith join b a = (combineWith join a b).mapError TyError.mirror := by
  by_cases heq : a = b
  · subst heq
    rw [combineWith_self]
    rfl
  · exact h heq

mutual

-- Turned around, a join has the same result, or fails by the same conflict turned around.
theorem combineWith_mirror (hjoin : join.Commutative) : ∀ a b : Ty, AllParts Ordered a →
    AllParts Ordered b → combineWith join b a = (combineWith join a b).mapError TyError.mirror
  | .unknown, b, _, _ => by
      rw [combineWith_unknown_left, combineWith_unknown_right]
      rfl
  | .scalar k, b, _, _ => by
      refine mirror_of_ne fun hne => ?_
      unfold combineWith
      rw [if_neg hne, if_neg hne.symm]
      cases b with
      | scalar l =>
          simp only [hjoin l k]
          rfl
      | _ => rfl
  | .array k m, b, _, _ => by
      refine mirror_of_ne fun hne => ?_
      unfold combineWith
      rw [if_neg hne, if_neg hne.symm]
      cases b with
      | array l n =>
          by_cases hrank : m = n
          · subst hrank
            simp only [if_true, hjoin l k]
            rfl
          · simp only [if_neg hrank, if_neg (Ne.symm hrank)]
            rfl
      | _ => rfl
  | .tuple xs, b, ha, hb => by
      cases b with
      | tuple ys =>
          have hrest := combineLists_mirror hjoin xs ys (allParts_tuple.mp ha).2
            (allParts_tuple.mp hb).2
          by_cases hlength : xs.length = ys.length
          · rw [combineWith_tuple join hlength, combineWith_tuple join hlength.symm, hrest]
            cases combineLists join xs ys <;> rfl
          · refine mirror_of_ne fun hne => ?_
            unfold combineWith
            rw [if_neg hne, if_neg hne.symm]
            simp only [if_neg hlength, if_neg (Ne.symm hlength)]
            rfl
      | _ => rfl
  | .struct xs, b, ha, hb => by
      cases b with
      | struct ys =>
          by_cases hkeys : NameMap.keys xs = NameMap.keys ys
          · have hrest := combineFields_mirror hjoin xs ys hkeys (allParts_struct.mp ha).2
              (allParts_struct.mp hb).2
            rw [combineWith_struct join hkeys, combineWith_struct join hkeys.symm, hrest]
            cases combineFields join xs ys <;> rfl
          · refine mirror_of_ne fun hne => ?_
            unfold combineWith
            rw [if_neg hne, if_neg hne.symm]
            simp only [if_neg hkeys, if_neg (Ne.symm hkeys)]
            rfl
      | _ => rfl
  | .closure c, b, ha, hb => by
      refine mirror_of_ne fun hne => ?_
      unfold combineWith
      rw [if_neg hne, if_neg hne.symm]
      cases b with
      | closure d =>
          simp only [ClosureSet.singleton, ClosureSet.insert_singleton_comm c d]
          rfl
      | _ => rfl
  | .closureSet cs, b, ha, hb => by
      refine mirror_of_ne fun hne => ?_
      unfold combineWith
      rw [if_neg hne, if_neg hne.symm]
      cases b with
      | closureSet ds =>
          simp only [ClosureSet.Sorted.union_comm hb.self ha.self]
          rfl
      | _ => rfl
  | .slice x y z, b, ha, hb => by
      cases b with
      | slice x' y' z' =>
          obtain ⟨-, hax, hay, haz⟩ := allParts_slice.mp ha
          obtain ⟨-, hbx, hby, hbz⟩ := allParts_slice.mp hb
          rw [combineWith_slice, combineWith_slice, combineWith_mirror hjoin x x' hax hbx,
            combineWith_mirror hjoin y y' hay hby, combineWith_mirror hjoin z z' haz hbz]
          -- the first part that conflicts ends either join
          cases combineWith join x x' <;> try rfl
          cases combineWith join y y' <;> try rfl
          cases combineWith join z z' <;> rfl
      | _ => rfl
  | .none, b, _, _ => by
      cases b <;> rfl
  termination_by structural a => a

theorem combineLists_mirror (hjoin : join.Commutative) : ∀ xs ys : List Ty,
    (∀ x ∈ xs, AllParts Ordered x) → (∀ y ∈ ys, AllParts Ordered y) →
    combineLists join ys xs = (combineLists join xs ys).mapError TyError.mirror
  | [], ys, _, _ => by cases ys <;> rfl
  | x :: xs, [], _, _ => rfl
  | x :: xs, y :: ys, hxs, hys => by
      obtain ⟨hx, hxs⟩ := List.forall_mem_cons.mp hxs
      obtain ⟨hy, hys⟩ := List.forall_mem_cons.mp hys
      unfold combineLists
      rw [combineWith_mirror hjoin x y hx hy, combineLists_mirror hjoin xs ys hxs hys]
      cases combineWith join x y <;> try rfl
      cases combineLists join xs ys <;> rfl
  termination_by structural xs => xs

theorem combineFields_mirror (hjoin : join.Commutative) : ∀ xs ys : List (String × Ty),
    NameMap.keys xs = NameMap.keys ys → (∀ x ∈ xs, AllParts Ordered x.2) →
    (∀ y ∈ ys, AllParts Ordered y.2) →
    combineFields join ys xs = (combineFields join xs ys).mapError TyError.mirror
  | [], [], _, _, _ => rfl
  | (m, x) :: xs, (n, y) :: ys, hkeys, hxs, hys => by
      obtain ⟨hname, hkeys⟩ : m = n ∧ NameMap.keys xs = NameMap.keys ys := List.cons.inj hkeys
      obtain ⟨hx, hxs⟩ := List.forall_mem_cons.mp hxs
      obtain ⟨hy, hys⟩ := List.forall_mem_cons.mp hys
      unfold combineFields
      rw [combineWith_mirror hjoin x y hx hy, combineFields_mirror hjoin xs ys hkeys hxs hys, hname]
      cases combineWith join x y <;> try rfl
      cases combineFields join xs ys <;> rfl
  termination_by structural xs => xs

end

end Mirror

-- A join does not depend on which of the types comes first, and neither does the conflict
-- it fails by, which names the two sides in the order they are given.
theorem combineWith_comm {join : Scalar.Policy} (hjoin : join.Commutative) {a b : Ty}
    (ha : AllParts Ordered a) (hb : AllParts Ordered b) :
    (∀ ty, a.combineWith join b = .ok ty ↔ b.combineWith join a = .ok ty) ∧
      ∀ x y, a.combineWith join b = .error (.conflict x y) ↔
        b.combineWith join a = .error (.conflict y x) := by
  have hmirror := combineWith_mirror hjoin a b ha hb
  rw [hmirror]
  cases a.combineWith join b with
  | ok ty => exact ⟨fun _ => Iff.rfl, fun _ _ => ⟨nofun, nofun⟩⟩
  | error error =>
      refine ⟨fun _ => ⟨nofun, nofun⟩, fun x y => ?_⟩
      have hturned : error = .conflict x y ↔ error.mirror = .conflict y x :=
        ⟨congrArg TyError.mirror, fun h => by rw [← error.mirror_mirror, h]; rfl⟩
      simpa [Except.mapError] using hturned

-- The second elements join to a set whichever comes first. Then the third ones conflict.
theorem combineWith_comm_conflict :
    let a : Ty := .tuple [.scalar .i8, .closure ⟨"g", []⟩, .struct [("x", .none)]]
    let b : Ty := .tuple
      [.unknown, .closureSet [⟨"f", [.none]⟩, ⟨"h", []⟩], .struct [("x", .array .f32 2)]]
    a.combineWith Scalar.promote b = .error (.conflict .none (.array .f32 2)) ∧
      b.combineWith Scalar.promote a = .error (.conflict (.array .f32 2) .none) := by
  intro a b
  have hconflict : a.combineWith Scalar.promote b = .error (.conflict .none (.array .f32 2)) := by
    decide +kernel
  have hcomm := combineWith_comm Scalar.promote_comm (a := a) (b := b) (by decide) (by decide)
  exact ⟨hconflict, (hcomm.2 _ _).mp hconflict⟩

theorem combine_symm {a b c : Ty} (h : a.combine b = .ok c) (ha : AllParts Ordered a)
    (hb : AllParts Ordered b) : b.combine a = .ok c := by
  have hmirror := combineWith_mirror Scalar.promote_comm a b ha hb
  unfold combine at h ⊢
  rw [hmirror, h]
  rfl

-- A type that lies below another one is taken in by it.
theorem combine_of_below {a b : Ty} (h : a.Below b) (ha : AllParts Proper a)
    (hb : AllParts Proper b) : b.combine a = .ok b :=
  combine_symm (widensTo_of_below a b h ha hb) (ha.imp fun _ => Proper.ordered)
    (hb.imp fun _ => Proper.ordered)

namespace Below

mutual

-- Types that lie below each other are the same.
theorem antisymm : ∀ {a b : Ty}, Below a b → Below b a → AllParts Ordered a →
    AllParts Ordered b → a = b
  | _, _, .unknown, .unknown, _, _ => rfl
  | .scalar k, .scalar l, .scalar h, .scalar h', _, _ => by
      rw [← h, Scalar.promote_comm, h']
  | .array k _, .array l _, .array h, .array h', _, _ => by
      rw [← h, Scalar.promote_comm, h']
  | .tuple xs, .tuple ys, .tuple h, .tuple h', ha, hb => by
      rw [antisymm_list xs h h' (allParts_tuple.mp ha).2 (allParts_tuple.mp hb).2]
  | .struct xs, .struct ys, .struct hkeys h, .struct _ h', ha, hb => by
      rw [antisymm_fields xs hkeys h h' (allParts_struct.mp ha).2 (allParts_struct.mp hb).2]
  | .slice _ _ _, .slice _ _ _, .slice hx hy hz, .slice hx' hy' hz', ha, hb => by
      obtain ⟨-, hax, hay, haz⟩ := allParts_slice.mp ha
      obtain ⟨-, hbx, hby, hbz⟩ := allParts_slice.mp hb
      rw [antisymm hx hx' hax hbx, antisymm hy hy' hay hby, antisymm hz hz' haz hbz]
  | _, _, .closure, _, _, _ => rfl
  | .closureSet cs, .closureSet ds, .closureSet h, .closureSet h', ha, hb => by
      rw [ClosureSet.Sorted.ext ha.self hb.self fun _ => ⟨fun hmem => h hmem, fun hmem => h' hmem⟩]
  | _, _, .none, _, _, _ => rfl
  termination_by structural a => a

theorem antisymm_list : ∀ (xs : List Ty) {ys : List Ty}, List.Forall₂ Below xs ys →
    List.Forall₂ Below ys xs → (∀ x ∈ xs, AllParts Ordered x) → (∀ y ∈ ys, AllParts Ordered y) →
    xs = ys
  | [], _, .nil, _, _, _ => rfl
  | _ :: xs, _, .cons h hs, .cons h' hs', hxs, hys => by
      obtain ⟨hx, hxs⟩ := List.forall_mem_cons.mp hxs
      obtain ⟨hy, hys⟩ := List.forall_mem_cons.mp hys
      rw [antisymm h h' hx hy, antisymm_list xs hs hs' hxs hys]
  termination_by structural xs => xs

theorem antisymm_fields : ∀ (xs : List (String × Ty)) {ys : List (String × Ty)},
    NameMap.keys xs = NameMap.keys ys → List.Forall₂ Below (xs.map Prod.snd) (ys.map Prod.snd) →
    List.Forall₂ Below (ys.map Prod.snd) (xs.map Prod.snd) → (∀ x ∈ xs, AllParts Ordered x.2) →
    (∀ y ∈ ys, AllParts Ordered y.2) → xs = ys
  | [], [], _, _, _, _, _ => rfl
  | (m, x) :: xs, (n, y) :: ys, hkeys, .cons h hs, .cons h' hs', hxs, hys => by
      obtain ⟨hname, hkeys⟩ : m = n ∧ NameMap.keys xs = NameMap.keys ys := List.cons.inj hkeys
      obtain ⟨hx, hxs⟩ := List.forall_mem_cons.mp hxs
      obtain ⟨hy, hys⟩ := List.forall_mem_cons.mp hys
      have hfirst : x = y := antisymm h h' hx hy
      rw [hname, hfirst, antisymm_fields xs hkeys hs hs' hxs hys]
  termination_by structural xs => xs

end

end Below

end Ty

end RankPoly
