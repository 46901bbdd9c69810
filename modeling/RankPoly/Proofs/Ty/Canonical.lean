import RankPoly.Proofs.Ty.ClosureSet
import RankPoly.Session.Store

namespace RankPoly

-- One type stands before another one, or is the same.
def Ty.AtMost (lhs rhs : Ty) : Prop :=
  (compare lhs rhs).isLE = true

namespace Ty.AtMost

instance (lhs rhs : Ty) : Decidable (lhs.AtMost rhs) :=
  inferInstanceAs (Decidable (_ = true))

variable {x y z : Ty}

theorem refl (x : Ty) : x.AtMost x :=
  Std.ReflCmp.isLE_rfl

theorem antisymm (h : x.AtMost y) (h' : y.AtMost x) : x = y :=
  Std.compare_eq_iff_eq.mp (Std.OrientedCmp.isLE_antisymm h h')

theorem trans (h : x.AtMost y) (h' : y.AtMost z) : x.AtMost z :=
  Std.TransCmp.isLE_trans h h'

theorem total (x y : Ty) : x.AtMost y ∨ y.AtMost x := by
  by_cases h : x.AtMost y
  · exact Or.inl h
  · have hgt : compare x y = .gt := Ordering.isLE_eq_false.mp (Bool.eq_false_iff.mpr h)
    exact Or.inr (Ordering.isLE_of_eq_lt (Std.OrientedCmp.lt_of_gt hgt))

end Ty.AtMost

namespace ClosureSet

-- A set put together from closures, in whichever order and however often they were given.
inductive Built : ClosureSet → List Closure → Prop where
  | singleton (closure : Closure) : Built (singleton closure) [closure]
  | ofList {closures : List Closure} {set : ClosureSet} : ofList? closures = some set →
      Built set closures
  | insert {set : ClosureSet} {given : List Closure} (closure : Closure) : Built set given →
      Built (ClosureSet.insert closure set).2 (closure :: given)
  | union {set set' : ClosureSet} {given given' : List Closure} : Built set given →
      Built set' given' → Built (ClosureSet.union set set') (given ++ given')

-- Two sets hold the same closures.
def SameMembers (set set' : ClosureSet) : Prop :=
  ∀ closure, closure ∈ set ↔ closure ∈ set'

variable {set set' : ClosureSet} {given given' : List Closure} {closure : Closure}

theorem ofList?_some (h : ofList? given = some set) :
    set.Sorted ∧ ∀ closure, closure ∈ set ↔ closure ∈ given := by
  cases given with
  | nil => cases h
  | cons first rest =>
      obtain rfl := Option.some.inj h
      refine ⟨(sorted_singleton first).union, fun closure => ?_⟩
      rw [mem_union, singleton, List.mem_singleton, List.mem_cons]

namespace Built

theorem sorted (h : Built set given) : set.Sorted := by
  induction h with
  | singleton closure => exact sorted_singleton closure
  | ofList hset => exact (ofList?_some hset).1
  | insert closure _ ih => exact ih.insert closure
  | union _ _ ih _ => exact ih.union

-- No closure is lost, and none comes from elsewhere.
theorem mem_iff (h : Built set given) : closure ∈ set ↔ closure ∈ given := by
  induction h with
  | singleton _ => rfl
  | ofList hset => exact (ofList?_some hset).2 closure
  | insert _ _ ih => rw [mem_insert, List.mem_cons, ih]
  | union _ _ ih ih' => rw [mem_union, List.mem_append, ih, ih']

theorem eq_iff (h : Built set given) (h' : Built set' given') :
    set = set' ↔ SameMembers set set' :=
  ⟨fun heq _ => heq ▸ Iff.rfl, h.sorted.ext h'.sorted⟩

end Built

-- The order of types is total and tells all types apart. So a set of closures is the same
-- type, and part of the same keys, as any other one with its members, however the two have
-- been put together. Its members are those that were given, each of them once, in
-- increasing order.
theorem built_canonical :
    ((∀ x : Ty, x.AtMost x) ∧ (∀ x y : Ty, x.AtMost y → y.AtMost x → x = y) ∧
      (∀ x y z : Ty, x.AtMost y → y.AtMost z → x.AtMost z) ∧
      (∀ x y : Ty, x.AtMost y ∨ y.AtMost x) ∧ ∀ x y : Ty, compare x y = .eq ↔ x = y) ∧
    ∀ set set' given given', Built set given → Built set' given' →
      ((Ty.closureSet set = Ty.closureSet set' ↔ SameMembers set set') ∧
        (∀ args, Call.mk (.closureSet set) args = ⟨.closureSet set', args⟩ ↔
          SameMembers set set') ∧
        ∀ func front back, Request.mk func (front ++ .closureSet set :: back) =
          ⟨func, front ++ .closureSet set' :: back⟩ ↔ SameMembers set set') ∧
      (∀ closure, closure ∈ set ↔ closure ∈ given) ∧
      set.Pairwise (fun c d => compare (Ty.closure c) (Ty.closure d) = .lt) ∧
      (∀ closure, contains closure set = true ↔ closure ∈ set) ∧
      (∀ closure, ((ClosureSet.insert closure set).1 = true ↔ closure ∉ set) ∧
        ∀ member, member ∈ (ClosureSet.insert closure set).2 ↔ member = closure ∨ member ∈ set) ∧
      ∀ member, member ∈ ClosureSet.union set set' ↔ member ∈ set ∨ member ∈ set' := by
  refine ⟨⟨Ty.AtMost.refl, fun _ _ => Ty.AtMost.antisymm, fun _ _ _ => Ty.AtMost.trans,
    Ty.AtMost.total, Ty.compare_eq_iff⟩, ?_⟩
  intro set set' given given' h h'
  have hty : Ty.closureSet set = Ty.closureSet set' ↔ SameMembers set set' := by
    rw [Ty.closureSet.injEq, h.eq_iff h']
  refine ⟨⟨hty, fun args => ?_, fun func front back => ?_⟩, fun _ => h.mem_iff, h.sorted,
    fun _ => h.sorted.contains_iff, fun _ => ⟨h.sorted.insert_fst_iff, fun _ => mem_insert⟩,
    fun _ => mem_union⟩
  · rw [Call.mk.injEq, hty, and_iff_left rfl]
  · rw [Request.mk.injEq, and_iff_right rfl, List.append_cancel_left_eq, List.cons.injEq, hty,
      and_iff_left rfl]

-- One set comes from a list with a closure twice in it, the other one from a union. Two of
-- the closures have the same name and captured a set of closures, or a slice with a struct.
theorem nested_built_canonical :
    let f : Closure := ⟨"f", [.closureSet [⟨"g", []⟩, ⟨"h", [.none]⟩]]⟩
    let g : Closure := ⟨"f", [.slice .none (.struct [("x", .scalar .i64)]) .unknown]⟩
    let h : Closure := ⟨"a", []⟩
    let set : ClosureSet := [h, f, g]
    let set' : ClosureSet := union (insert g (singleton h)).2 (singleton f)
    Built set [f, g, f, h] ∧ Built set' [g, h, f] ∧ (Ty.closure h).AtMost (.closure f) ∧
      (Ty.closure f).AtMost (.closure g) ∧ (Ty.closure h).AtMost (.closure g) ∧
      (Ty.closureSet set).AtMost (.closureSet set') ∧
      (Ty.closureSet set').AtMost (.closureSet set) ∧ Ty.closureSet set = .closureSet set' ∧
      SameMembers set set' ∧ Call.mk (.closureSet set) [.none] = ⟨.closureSet set', [.none]⟩ ∧
      (insert f set').1 = false ∧ ¬contains ⟨"g", []⟩ set' := by
  intro f g h set set'
  have hset : Built set [f, g, f, h] := .ofList (by decide +kernel)
  have hset' : Built set' [g, h, f] := .union (.insert g (.singleton h)) (.singleton f)
  have hle : (Ty.closure h).AtMost (.closure f) := by decide +kernel
  have hle' : (Ty.closure f).AtMost (.closure g) := by decide +kernel
  have hsets : (Ty.closureSet set).AtMost (.closureSet set') := by decide +kernel
  have hsets' : (Ty.closureSet set').AtMost (.closureSet set) := by decide +kernel
  obtain ⟨⟨-, hantisymm, htrans, -, -⟩, hcanonical⟩ := built_canonical
  obtain ⟨⟨hty, hcall, -⟩, -, -, -, -, -⟩ := hcanonical set set' _ _ hset hset'
  obtain ⟨-, hmem, -, hcontains, hinsert, -⟩ := hcanonical set' set _ _ hset' hset
  have heq : Ty.closureSet set = .closureSet set' := hantisymm _ _ hsets hsets'
  refine ⟨hset, hset', hle, hle', htrans _ _ _ hle hle', hsets, hsets', heq, hty.mp heq,
    (hcall _).mpr (hty.mp heq), ?_, ?_⟩
  · have hf : f ∈ set' := (hmem f).mpr (by simp)
    exact Bool.eq_false_iff.mpr fun habsent => (hinsert f).1.mp habsent hf
  · rw [hcontains, hmem]
    decide +kernel

end ClosureSet

end RankPoly
