import Mathlib.Data.List.Forall2
import RankPoly.Proofs.Ty.Join

namespace RankPoly

namespace Scalar

theorem mem_all (kind : Scalar) : kind ∈ Scalar.all :=
  List.mem_of_getElem? kind.all_index

theorem promote_self (k : Scalar) : k.promote k = k :=
  if_pos rfl

-- What two kinds are promoted to stays when either of them comes once more.
theorem promote_promote (k l : Scalar) :
    k.promote (k.promote l) = k.promote l ∧ l.promote (k.promote l) = k.promote l := by
  have h : ∀ k ∈ Scalar.all, ∀ l ∈ Scalar.all,
      k.promote (k.promote l) = k.promote l ∧ l.promote (k.promote l) = k.promote l := by
    decide +kernel
  exact h k k.mem_all l l.mem_all

-- A promotion does not depend on the way, as long as it only goes up.
theorem promote_trans {k l m : Scalar} (h : k.promote l = l) (h' : l.promote m = m) :
    k.promote m = m := by
  have htrans : ∀ k ∈ Scalar.all, ∀ l ∈ Scalar.all, ∀ m ∈ Scalar.all,
      k.promote l = l → l.promote m = m → k.promote m = m := by
    decide +kernel
  exact htrans k k.mem_all l l.mem_all m m.mem_all h h'

end Scalar

namespace Ty

-- A type that a join can widen to another one. An array without dimensions is
-- below the scalars that it is taken for as soon as it is joined.
inductive Below : Ty → Ty → Prop where
  | unknown {ty : Ty} : Below .unknown ty
  | scalar {k l : Scalar} : k.promote l = l → Below (.scalar k) (.scalar l)
  | array {k l : Scalar} {n : Nat} : k.promote l = l → Below (.array k n) (.array l n)
  | flat {k l : Scalar} : k.promote l = l → Below (.array k 0) (.scalar l)
  | tuple {xs ys : List Ty} : List.Forall₂ Below xs ys → Below (.tuple xs) (.tuple ys)
  | struct {xs ys : List (String × Ty)} : NameMap.keys xs = NameMap.keys ys →
      List.Forall₂ Below (xs.map Prod.snd) (ys.map Prod.snd) → Below (.struct xs) (.struct ys)
  | slice {x y z x' y' z' : Ty} : Below x x' → Below y y' → Below z z' →
      Below (.slice x y z) (.slice x' y' z')
  | closure {c : Closure} : Below (.closure c) (.closure c)
  | member {c : Closure} {ds : List Closure} : c ∈ ds → Below (.closure c) (.closureSet ds)
  | closureSet {cs ds : List Closure} : cs ⊆ ds → Below (.closureSet cs) (.closureSet ds)
  | none : Below .none .none

mutual

theorem below_refl : ∀ ty : Ty, Below ty ty
  | .unknown => .unknown
  | .scalar k => .scalar k.promote_self
  | .array k _ => .array k.promote_self
  | .tuple xs => .tuple (below_refl_list xs)
  | .struct xs => .struct rfl (below_refl_fields xs)
  | .closure _ => .closure
  | .closureSet _ => .closureSet (List.Subset.refl _)
  | .slice x y z => .slice (below_refl x) (below_refl y) (below_refl z)
  | .none => .none
  termination_by structural ty => ty

theorem below_refl_list : ∀ tys : List Ty, List.Forall₂ Below tys tys
  | [] => .nil
  | first :: rest => .cons (below_refl first) (below_refl_list rest)
  termination_by structural tys => tys

theorem below_refl_fields : ∀ fields : List (String × Ty),
    List.Forall₂ Below (fields.map Prod.snd) (fields.map Prod.snd)
  | [] => .nil
  | (_, first) :: rest => .cons (below_refl first) (below_refl_fields rest)
  termination_by structural fields => fields

end

namespace Below

theorem of_ofRank {k l : Scalar} {n : Nat} (h : k.promote l = l) :
    Below (.array k n) (.ofRank l n) := by
  unfold ofRank
  split
  · rename_i hn
    exact hn ▸ .flat h
  · exact .array h

mutual

theorem trans : ∀ {a b c : Ty}, Below a b → Below b c → Below a c
  | _, _, _, .unknown, _ => .unknown
  | _, _, _, .scalar h, .scalar h' => .scalar (Scalar.promote_trans h h')
  | _, _, _, .array h, .array h' => .array (Scalar.promote_trans h h')
  | _, _, _, .array h, .flat h' => .flat (Scalar.promote_trans h h')
  | _, _, _, .flat h, .scalar h' => .flat (Scalar.promote_trans h h')
  | .tuple xs, _, _, .tuple h, .tuple h' => .tuple (trans_list xs h h')
  | .struct xs, _, _, .struct hkeys h, .struct hkeys' h' =>
      .struct (hkeys.trans hkeys') (trans_fields xs h h')
  | .slice _ _ _, _, _, .slice hx hy hz, .slice hx' hy' hz' =>
      .slice (trans hx hx') (trans hy hy') (trans hz hz')
  | _, _, _, .closure, h => h
  | _, _, _, .member h, .closureSet h' => .member (h' h)
  | _, _, _, .closureSet h, .closureSet h' => .closureSet (List.Subset.trans h h')
  | _, _, _, .none, .none => .none
  termination_by structural a => a

theorem trans_list : ∀ (xs : List Ty) {ys zs : List Ty}, List.Forall₂ Below xs ys →
    List.Forall₂ Below ys zs → List.Forall₂ Below xs zs
  | [], _, _, .nil, .nil => .nil
  | _ :: xs, _, _, .cons h hs, .cons h' hs' => .cons (trans h h') (trans_list xs hs hs')
  termination_by structural xs => xs

theorem trans_fields : ∀ (xs : List (String × Ty)) {ys zs : List Ty},
    List.Forall₂ Below (xs.map Prod.snd) ys → List.Forall₂ Below ys zs →
    List.Forall₂ Below (xs.map Prod.snd) zs
  | [], _, _, .nil, .nil => .nil
  | (_, _) :: xs, _, _, .cons h hs, .cons h' hs' => .cons (trans h h') (trans_fields xs hs hs')
  termination_by structural xs => xs

end

end Below

mutual

-- What two types join to is above both.
theorem below_of_joins : ∀ (a b c : Ty), Joins a b c → Below a c ∧ Below b c
  | a, _, _, .same => ⟨below_refl a, below_refl a⟩
  | _, b, _, .left => ⟨.unknown, below_refl b⟩
  | a, _, _, .right => ⟨below_refl a, .unknown⟩
  | .scalar k, .scalar l, _, .scalar =>
      ⟨.scalar (k.promote_promote l).1, .scalar (k.promote_promote l).2⟩
  | .array k _, .array l _, _, .array =>
      ⟨.of_ofRank (k.promote_promote l).1, .of_ofRank (k.promote_promote l).2⟩
  | .tuple xs, .tuple ys, .tuple zs, .tuple hlength h =>
      have hbelow := below_of_combineLists xs ys zs hlength h
      ⟨.tuple hbelow.1, .tuple hbelow.2⟩
  | .struct xs, .struct ys, .struct zs, .struct hkeys h =>
      have hbelow := below_of_combineFields xs ys zs hkeys h
      ⟨.struct hbelow.1 hbelow.2.1, .struct (hkeys ▸ hbelow.1) hbelow.2.2⟩
  | .slice x y z, .slice x' y' z', .slice x'' y'' z'', .slice hx hy hz =>
      have hx := below_of_joins x x' x'' (joins_of_combine hx)
      have hy := below_of_joins y y' y'' (joins_of_combine hy)
      have hz := below_of_joins z z' z'' (joins_of_combine hz)
      ⟨.slice hx.1 hy.1 hz.1, .slice hx.2 hy.2 hz.2⟩
  | .closure _, .closure _, _, .closures =>
      ⟨.member (ClosureSet.mem_insert.mpr (Or.inr (List.mem_singleton.mpr rfl))),
        .member (ClosureSet.mem_insert.mpr (Or.inl rfl))⟩
  | .closure _, .closureSet _, _, .closureSet =>
      ⟨.member (ClosureSet.mem_insert.mpr (Or.inl rfl)),
        .closureSet fun _ hmem => ClosureSet.mem_insert.mpr (Or.inr hmem)⟩
  | .closureSet _, .closure _, _, .setClosure =>
      ⟨.closureSet fun _ hmem => ClosureSet.mem_insert.mpr (Or.inr hmem),
        .member (ClosureSet.mem_insert.mpr (Or.inl rfl))⟩
  | .closureSet _, .closureSet _, _, .sets =>
      ⟨.closureSet fun _ hmem => ClosureSet.mem_union.mpr (Or.inl hmem),
        .closureSet fun _ hmem => ClosureSet.mem_union.mpr (Or.inr hmem)⟩
  termination_by structural a => a

theorem below_of_combineLists : ∀ (xs ys zs : List Ty), xs.length = ys.length →
    combineLists Scalar.promote xs ys = .ok zs →
    List.Forall₂ Below xs zs ∧ List.Forall₂ Below ys zs
  | [], [], zs, _, h => by
      unfold combineLists at h
      cases h
      exact ⟨.nil, .nil⟩
  | x :: xs, y :: ys, zs, hlength, h => by
      obtain ⟨z, rest, rfl, hz, hrest⟩ := combineLists_cons h
      have hfirst := below_of_joins x y z (joins_of_combine hz)
      have hbelow := below_of_combineLists xs ys rest (Nat.succ.inj hlength) hrest
      exact ⟨.cons hfirst.1 hbelow.1, .cons hfirst.2 hbelow.2⟩
  termination_by structural xs => xs

theorem below_of_combineFields : ∀ (xs ys zs : List (String × Ty)),
    NameMap.keys xs = NameMap.keys ys → combineFields Scalar.promote xs ys = .ok zs →
    NameMap.keys xs = NameMap.keys zs ∧ List.Forall₂ Below (xs.map Prod.snd) (zs.map Prod.snd) ∧
      List.Forall₂ Below (ys.map Prod.snd) (zs.map Prod.snd)
  | [], [], zs, _, h => by
      unfold combineFields at h
      cases h
      exact ⟨rfl, .nil, .nil⟩
  | (m, x) :: xs, (n, y) :: ys, zs, hkeys, h => by
      obtain ⟨z, rest, rfl, hz, hrest⟩ := combineFields_cons h
      have hfirst := below_of_joins x y z (joins_of_combine hz)
      obtain ⟨hkeys', hleft, hright⟩ :=
        below_of_combineFields xs ys rest (List.cons.inj hkeys).2 hrest
      exact ⟨congrArg (m :: ·) hkeys', .cons hfirst.1 hleft, .cons hfirst.2 hright⟩
  termination_by structural xs => xs

end

-- A join is above what is joined.
theorem below_combine {a b c : Ty} (h : a.combine b = .ok c) : Below a c ∧ Below b c :=
  below_of_joins a b c (joins_of_combine h)

-- What types have to have for the order to be told by joins: arrays have
-- dimensions, and sets of closures have members, in their order.
def Proper : Ty → Prop
  | .array _ rank => 0 < rank
  | .closureSet members => members ≠ [] ∧ ClosureSet.Sorted members
  | _ => True

instance : DecidablePred Proper
  | .array _ rank => inferInstanceAs (Decidable (0 < rank))
  | .closureSet members => inferInstanceAs (Decidable (members ≠ [] ∧ ClosureSet.Sorted members))
  | .unknown | .scalar _ | .tuple _ | .struct _ | .closure _ | .slice .. | .none =>
    inferInstanceAs (Decidable True)

theorem stable_proper : Stable Proper where
  scalar _ := trivial
  array _ _ h := h
  tuple _ := trivial
  struct _ := trivial
  closure _ := trivial
  slice _ _ _ := trivial
  none := trivial
  empty _ := trivial
  singleton member := ⟨List.cons_ne_nil _ _, ClosureSet.sorted_singleton member⟩
  insert member h := ⟨ClosureSet.insert_ne_nil, h.2.insert member⟩

-- Joining a type into another one leaves the other as it is.
def WidensTo (a b : Ty) : Prop :=
  a.combine b = .ok b

instance (a b : Ty) : Decidable (a.WidensTo b) :=
  inferInstanceAs (Decidable (_ = _))

theorem combine_self (ty : Ty) : ty.combine ty = .ok ty :=
  combineWith_self _ ty

theorem widensTo_of_ne {a b : Ty} (h : a ≠ b → a.combine b = .ok b) : a.WidensTo b := by
  by_cases heq : a = b
  · exact heq ▸ combine_self b
  · exact h heq

mutual

-- Proper types are joined as the order says.
theorem widensTo_of_below : ∀ (a b : Ty), Below a b → AllParts Proper a → AllParts Proper b →
    a.WidensTo b
  | _, b, .unknown, _, _ => combine_unknown_left b
  | .scalar k, .scalar l, .scalar h, _, _ => by
      refine widensTo_of_ne fun hne => ?_
      unfold combine combineWith
      rw [if_neg hne]
      simp only [h]
  | .array k n, .array l _, .array h, ha, _ => by
      refine widensTo_of_ne fun hne => ?_
      unfold combine combineWith
      rw [if_neg hne]
      simp only [if_true, h, ofRank_of_pos l ha.self]
  | .array k _, .scalar l, .flat _, ha, _ => (Nat.lt_irrefl 0 ha.self).elim
  | .tuple xs, .tuple ys, .tuple h, ha, hb => by
      refine widensTo_of_ne fun hne => ?_
      have hjoin := combineLists_of_below xs ys h (allParts_tuple.mp ha).2 (allParts_tuple.mp hb).2
      unfold combine combineWith
      rw [if_neg hne]
      simp only [if_pos h.length_eq, hjoin]
      rfl
  | .struct xs, .struct ys, .struct hkeys h, ha, hb => by
      refine widensTo_of_ne fun hne => ?_
      have hjoin := combineFields_of_below xs ys hkeys h (allParts_struct.mp ha).2
        (allParts_struct.mp hb).2
      unfold combine combineWith
      rw [if_neg hne]
      simp only [if_pos hkeys, hjoin]
      rfl
  | .slice x y z, .slice x' y' z', .slice hx hy hz, ha, hb => by
      obtain ⟨-, hax, hay, haz⟩ := allParts_slice.mp ha
      obtain ⟨-, hbx, hby, hbz⟩ := allParts_slice.mp hb
      have hx : combineWith Scalar.promote x x' = .ok x' := widensTo_of_below x x' hx hax hbx
      have hy : combineWith Scalar.promote y y' = .ok y' := widensTo_of_below y y' hy hay hby
      have hz : combineWith Scalar.promote z z' = .ok z' := widensTo_of_below z z' hz haz hbz
      refine widensTo_of_ne fun hne => ?_
      unfold combine combineWith
      rw [if_neg hne]
      simp only [hx, hy, hz]
      rfl
  | .closure c, _, .closure, _, _ => combine_self (.closure c)
  | .closure c, .closureSet ds, .member h, _, hb => by
      refine widensTo_of_ne fun hne => ?_
      unfold combine combineWith
      rw [if_neg hne]
      simp only [ClosureSet.Sorted.insert_of_mem hb.self.2 h]
  | .closureSet cs, .closureSet ds, .closureSet h, ha, hb => by
      refine widensTo_of_ne fun hne => ?_
      unfold combine combineWith
      rw [if_neg hne]
      simp only [ClosureSet.Sorted.union_of_subset ha.self.2 hb.self.2 h]
  | _, _, .none, _, _ => combine_self .none
  termination_by structural a => a

theorem combineLists_of_below : ∀ (xs ys : List Ty), List.Forall₂ Below xs ys →
    (∀ x ∈ xs, AllParts Proper x) → (∀ y ∈ ys, AllParts Proper y) →
    combineLists Scalar.promote xs ys = .ok ys
  | [], [], .nil, _, _ => by
      unfold combineLists
      rfl
  | x :: xs, y :: ys, .cons h hs, hxs, hys => by
      obtain ⟨hx, hxs⟩ := List.forall_mem_cons.mp hxs
      obtain ⟨hy, hys⟩ := List.forall_mem_cons.mp hys
      have hfirst : combineWith Scalar.promote x y = .ok y := widensTo_of_below x y h hx hy
      unfold combineLists
      rw [hfirst, combineLists_of_below xs ys hs hxs hys]
      rfl
  termination_by structural xs => xs

theorem combineFields_of_below : ∀ (xs ys : List (String × Ty)),
    NameMap.keys xs = NameMap.keys ys →
    List.Forall₂ Below (xs.map Prod.snd) (ys.map Prod.snd) → (∀ x ∈ xs, AllParts Proper x.2) →
    (∀ y ∈ ys, AllParts Proper y.2) → combineFields Scalar.promote xs ys = .ok ys
  | [], [], _, .nil, _, _ => by
      unfold combineFields
      rfl
  | (m, x) :: xs, (n, y) :: ys, hkeys, .cons h hs, hxs, hys => by
      obtain ⟨hname, hkeys⟩ : m = n ∧ NameMap.keys xs = NameMap.keys ys := List.cons.inj hkeys
      obtain ⟨hx, hxs⟩ := List.forall_mem_cons.mp hxs
      obtain ⟨hy, hys⟩ := List.forall_mem_cons.mp hys
      have hfirst : combineWith Scalar.promote x y = .ok y := widensTo_of_below x y h hx hy
      unfold combineFields
      rw [hfirst, combineFields_of_below xs ys hkeys hs hxs hys, hname]
      rfl
  termination_by structural xs => xs

end

end Ty

end RankPoly
