import RankPoly.Proofs.Ty.ClosureSet
import RankPoly.Ty.Combine
import RankPoly.Ty.Rank

namespace RankPoly.Ty

mutual

-- A type with all types that it is made of, also those that its closures have
-- captured.
def parts : Ty → List Ty
  | .unknown => [.unknown]
  | .scalar kind => [.scalar kind]
  | .array elem rank => [.array elem rank]
  | .tuple elems => .tuple elems :: partsList elems
  | .struct fields => .struct fields :: partsFields fields
  | .closure target => .closure target :: partsClosure target
  | .closureSet members => .closureSet members :: partsClosures members
  | .slice start stop step => .slice start stop step :: (parts start ++ parts stop ++ parts step)
  | .none => [.none]
  termination_by structural ty => ty

def partsList : List Ty → List Ty
  | [] => []
  | first :: rest => parts first ++ partsList rest
  termination_by structural tys => tys

def partsFields : List (String × Ty) → List Ty
  | [] => []
  | (_, first) :: rest => parts first ++ partsFields rest
  termination_by structural fields => fields

def partsClosure : Closure → List Ty
  | ⟨_, captured⟩ => partsList captured
  termination_by structural closure => closure

def partsClosures : List Closure → List Ty
  | [] => []
  | first :: rest => partsClosure first ++ partsClosures rest
  termination_by structural closures => closures

end

-- A property of a type and of all that it is made of.
def AllParts (p : Ty → Prop) (ty : Ty) : Prop :=
  ∀ part ∈ ty.parts, p part

instance (p : Ty → Prop) [DecidablePred p] (ty : Ty) : Decidable (ty.AllParts p) :=
  inferInstanceAs (Decidable (∀ part ∈ ty.parts, p part))

section AllParts

variable {p q : Ty → Prop} {ty : Ty}

theorem forall_partsList : ∀ {tys : List Ty},
    (∀ part ∈ partsList tys, p part) ↔ ∀ ty ∈ tys, AllParts p ty
  | [] => ⟨nofun, nofun⟩
  | first :: rest => by
      change (∀ part ∈ parts first ++ partsList rest, p part) ↔ _
      rw [List.forall_mem_append, List.forall_mem_cons, forall_partsList]
      rfl

theorem forall_partsFields : ∀ {fields : List (String × Ty)},
    (∀ part ∈ partsFields fields, p part) ↔ ∀ field ∈ fields, AllParts p field.2
  | [] => ⟨nofun, nofun⟩
  | (_, first) :: rest => by
      change (∀ part ∈ parts first ++ partsFields rest, p part) ↔ _
      rw [List.forall_mem_append, List.forall_mem_cons, forall_partsFields]
      rfl

theorem forall_partsClosures : ∀ {closures : List Closure},
    (∀ part ∈ partsClosures closures, p part) ↔
      ∀ closure ∈ closures, ∀ ty ∈ closure.captured, AllParts p ty
  | [] => ⟨nofun, nofun⟩
  | ⟨_, captured⟩ :: rest => by
      change (∀ part ∈ partsList captured ++ partsClosures rest, p part) ↔ _
      rw [List.forall_mem_append, List.forall_mem_cons, forall_partsList, forall_partsClosures]

-- A type is the first of its parts, and has to have the property itself.
theorem allParts_iff {rest : List Ty} (h : ty.parts = ty :: rest) :
    AllParts p ty ↔ p ty ∧ ∀ part ∈ rest, p part := by
  unfold AllParts
  rw [h]
  exact List.forall_mem_cons

theorem allParts_leaf (h : ty.parts = [ty]) : AllParts p ty ↔ p ty :=
  (allParts_iff h).trans (and_iff_left nofun)

@[simp] theorem allParts_unknown : AllParts p .unknown ↔ p .unknown :=
  allParts_leaf rfl

@[simp] theorem allParts_scalar {kind : Scalar} : AllParts p (.scalar kind) ↔ p (.scalar kind) :=
  allParts_leaf rfl

@[simp] theorem allParts_array {elem : Scalar} {rank : Nat} :
    AllParts p (.array elem rank) ↔ p (.array elem rank) :=
  allParts_leaf rfl

@[simp] theorem allParts_none : AllParts p .none ↔ p .none :=
  allParts_leaf rfl

theorem allParts_tuple {elems : List Ty} :
    AllParts p (.tuple elems) ↔ p (.tuple elems) ∧ ∀ ty ∈ elems, AllParts p ty :=
  (allParts_iff rfl).trans (and_congr_right' forall_partsList)

theorem allParts_struct {fields : List (String × Ty)} :
    AllParts p (.struct fields) ↔ p (.struct fields) ∧ ∀ field ∈ fields, AllParts p field.2 :=
  (allParts_iff rfl).trans (and_congr_right' forall_partsFields)

theorem allParts_closure {closure : Closure} :
    AllParts p (.closure closure) ↔
      p (.closure closure) ∧ ∀ ty ∈ closure.captured, AllParts p ty := by
  obtain ⟨func, captured⟩ := closure
  exact (allParts_iff rfl).trans (and_congr_right' forall_partsList)

theorem allParts_closureSet {members : List Closure} :
    AllParts p (.closureSet members) ↔
      p (.closureSet members) ∧ ∀ member ∈ members, ∀ ty ∈ member.captured, AllParts p ty :=
  (allParts_iff rfl).trans (and_congr_right' forall_partsClosures)

theorem allParts_slice {start stop step : Ty} :
    AllParts p (.slice start stop step) ↔
      p (.slice start stop step) ∧ AllParts p start ∧ AllParts p stop ∧ AllParts p step := by
  refine (allParts_iff rfl).trans (and_congr_right' ?_)
  rw [List.forall_mem_append, List.forall_mem_append, and_assoc]
  rfl

theorem mem_parts_self (ty : Ty) : ty ∈ ty.parts := by
  cases ty <;> exact List.mem_cons_self

theorem AllParts.self (h : ty.AllParts p) : p ty :=
  h ty ty.mem_parts_self

theorem AllParts.imp (h : ty.AllParts p) (hpq : ∀ part, p part → q part) : ty.AllParts q :=
  fun part hpart => hpq part (h part hpart)

-- The types that a closure has captured are parts of what it is called as.
theorem AllParts.captured {callee : Ty} (h : callee.AllParts p) {members : List Closure}
    (hmembers : callee.members? = some members) :
    ∀ member ∈ members, ∀ ty ∈ member.captured, ty.AllParts p := by
  cases callee with
  | closure target =>
      cases hmembers
      simpa using (allParts_closure.mp h).2
  | closureSet members' =>
      cases hmembers
      exact (allParts_closureSet.mp h).2
  | _ => cases hmembers

end AllParts

-- Axes are taken off type by type.
theorem forall₂_lowerRanks {count : Nat} : ∀ {tys lowered : List Ty},
    lowerRanks tys count = .ok lowered →
    List.Forall₂ (fun ty low => ty.lowerRank count = .ok low) tys lowered
  | [], _, h => by
      cases h
      exact .nil
  | first :: rest, lowered, h => by
      unfold lowerRanks at h
      rw [List.mapM_cons] at h
      cases hfirst : first.lowerRank count <;> rw [hfirst] at h
      · cases h
      cases hrest : rest.mapM (Ty.lowerRank · count) <;> rw [hrest] at h <;> cases h
      exact .cons hfirst (forall₂_lowerRanks hrest)

-- A property of types that only some arrays and sets of closures can lack, and
-- that neither joins nor changes of rank take away.
structure Stable (p : Ty → Prop) : Prop where
  scalar : ∀ kind, p (.scalar kind)
  array : ∀ elem {rank}, 0 < rank → p (.array elem rank)
  tuple : ∀ elems, p (.tuple elems)
  struct : ∀ fields, p (.struct fields)
  closure : ∀ target, p (.closure target)
  slice : ∀ start stop step, p (.slice start stop step)
  none : p .none
  -- What a set without members is called for stays unknown.
  empty : p (.closureSet []) → p .unknown
  singleton : ∀ member, p (.closureSet [member])
  insert : ∀ {members} member, p (.closureSet members) →
    p (.closureSet (ClosureSet.insert member members).2)

namespace Stable

variable {p : Ty → Prop}

theorem ofRank (hp : Stable p) (elem : Scalar) (rank : Nat) : AllParts p (.ofRank elem rank) := by
  unfold Ty.ofRank
  split
  · exact allParts_scalar.mpr (hp.scalar elem)
  · exact allParts_array.mpr (hp.array elem (by omega))

theorem union (hp : Stable p) : ∀ {set' set : ClosureSet}, p (.closureSet set) →
    p (.closureSet (ClosureSet.union set set'))
  | [], _, h => h
  | first :: rest, set, h => by
      change p (.closureSet (ClosureSet.union (ClosureSet.insert first set).2 rest))
      exact hp.union (hp.insert first h)

theorem allParts_insert (hp : Stable p) {member : Closure} {members : List Closure}
    (h : AllParts p (.closureSet members)) (hmember : ∀ ty ∈ member.captured, AllParts p ty) :
    AllParts p (.closureSet (ClosureSet.insert member members).2) := by
  obtain ⟨hset, hmembers⟩ := allParts_closureSet.mp h
  exact allParts_closureSet.mpr
    ⟨hp.insert member hset, ClosureSet.forall_mem_insert.mpr ⟨hmember, hmembers⟩⟩

theorem allParts_union (hp : Stable p) {set set' : List Closure}
    (h : AllParts p (.closureSet set)) (h' : AllParts p (.closureSet set')) :
    AllParts p (.closureSet (ClosureSet.union set set')) := by
  obtain ⟨hset, hmembers⟩ := allParts_closureSet.mp h
  obtain ⟨-, hmembers'⟩ := allParts_closureSet.mp h'
  exact allParts_closureSet.mpr
    ⟨hp.union hset, ClosureSet.forall_mem_union.mpr ⟨hmembers, hmembers'⟩⟩

-- Types that can be raised are made of scalars, so only a type that stays as it
-- is has to be asked.
theorem increaseRank (hp : Stable p) {ty raised : Ty} {count : Nat}
    (h : ty.increaseRank count = .ok raised) (hty : count = 0 → AllParts p ty) :
    AllParts p raised := by
  unfold Ty.increaseRank at h
  split at h
  · rename_i hcount
    cases h
    exact hty hcount
  · split at h <;> cases h
    · exact hp.ofRank _ _
    · exact hp.ofRank _ _

theorem lowerRank (hp : Stable p) {ty lowered : Ty} {count : Nat}
    (h : ty.lowerRank count = .ok lowered) (hty : AllParts p ty) : AllParts p lowered := by
  unfold Ty.lowerRank at h
  split at h
  · cases h
    exact hty
  · split at h
    · cases h
      exact hty
    · split at h <;> cases h
      exact hp.ofRank _ _
    · cases h

theorem lowerRanks (hp : Stable p) {count : Nat} {tys lowered : List Ty}
    (h : Ty.lowerRanks tys count = .ok lowered) (htys : ∀ ty ∈ tys, AllParts p ty) :
    ∀ ty ∈ lowered, AllParts p ty := by
  have hrel := forall₂_lowerRanks h
  clear h
  induction hrel with
  | nil => exact nofun
  | cons hfirst _ ih =>
      obtain ⟨hty, hrest⟩ := List.forall_mem_cons.mp htys
      exact List.forall_mem_cons.mpr ⟨hp.lowerRank hfirst hty, ih hrest⟩

-- What is taken out of an array, or a slice of it.
theorem indexType (hp : Stable p) {value index ty : Ty} (h : value.indexType index = .ok ty)
    (hvalue : AllParts p value) : AllParts p ty := by
  unfold Ty.indexType at h
  split at h
  · split at h
    · split at h <;> cases h
      exact hp.ofRank _ _
    · cases h
      exact hvalue
    · split at h <;> cases h
      exact hp.ofRank _ _
    · split at h <;> cases h
      exact hp.ofRank _ _
    · cases h
  · cases h

end Stable

end RankPoly.Ty
