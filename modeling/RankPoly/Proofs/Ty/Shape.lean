import RankPoly.Proofs.Promotion

namespace RankPoly.Ty

mutual

-- A type with one kind in place of all kinds outside of its closures.
def shape : Ty → Ty
  | .unknown => .unknown
  | .scalar _ => .scalar .bool
  | .array _ rank => .array .bool rank
  | .tuple elems => .tuple (shapeList elems)
  | .struct fields => .struct (shapeFields fields)
  | .closure target => .closure target
  | .closureSet members => .closureSet members
  | .slice start stop step => .slice (shape start) (shape stop) (shape step)
  | .none => .none
  termination_by structural ty => ty

def shapeList : List Ty → List Ty
  | [] => []
  | first :: rest => shape first :: shapeList rest
  termination_by structural tys => tys

def shapeFields : List (String × Ty) → List (String × Ty)
  | [] => []
  | (name, first) :: rest => (name, shape first) :: shapeFields rest
  termination_by structural fields => fields

end

@[simp] theorem length_shapeList (tys : List Ty) : (shapeList tys).length = tys.length := by
  induction tys with
  | nil => rfl
  | cons _ rest ih => exact congrArg (· + 1) ih

theorem keys_shapeFields (fields : List (String × Ty)) :
    NameMap.keys (shapeFields fields) = NameMap.keys fields := by
  induction fields with
  | nil => rfl
  | cons field rest ih => exact congrArg (field.1 :: ·) ih

theorem shapeFields_snd (fields : List (String × Ty)) :
    (shapeFields fields).map Prod.snd = shapeList (fields.map Prod.snd) := by
  induction fields with
  | nil => rfl
  | cons field rest ih => exact congrArg (field.2.shape :: ·) ih

-- The kind of a scalar or of what an array holds. Other types have none, for which there
-- is the one that yields to all others.
def kind : Ty → Scalar
  | .scalar kind => kind
  | .array elem _ => elem
  | _ => .bool

-- The types that stand inside of a type and are joined with it, one by one.
def children : Ty → List Ty
  | .tuple elems => elems
  | .struct fields => fields.map Prod.snd
  | .slice start stop step => [start, stop, step]
  | _ => []

-- The kind at a place inside of a type, which is told by the numbers of the parts on the way.
def kindAt : (path : List Nat) → Ty → Scalar
  | [], ty => ty.kind
  | i :: path, ty => (ty.children[i]?).elim .bool (kindAt path)

@[simp] theorem kind_ofRank (elem : Scalar) (rank : Nat) : (ofRank elem rank).kind = elem := by
  unfold ofRank
  split <;> rfl

@[simp] theorem children_ofRank (elem : Scalar) (rank : Nat) :
    (ofRank elem rank).children = [] := by
  unfold ofRank
  split <;> rfl

theorem kindAt_unknown (path : List Nat) : kindAt path .unknown = .bool := by
  cases path <;> rfl

section Ext

mutual

-- A type is told by its shape and its kinds.
theorem eq_of_shape : ∀ a b : Ty, a.shape = b.shape → (∀ path, kindAt path a = kindAt path b) →
    a = b
  | .unknown, b, h, _ => by
      cases b <;> cases h
      rfl
  | .scalar k, b, h, hkinds => by
      cases b <;> cases h
      exact congrArg scalar (hkinds [])
  | .array k m, b, h, hkinds => by
      cases b <;> cases h
      exact congrArg (array · m) (hkinds [])
  | .tuple xs, b, h, hkinds => by
      cases b with
      | tuple ys =>
          have hshape : shapeList xs = shapeList ys := by simpa [shape] using h
          exact congrArg tuple (eq_of_shapeList xs ys hshape fun i path => hkinds (i :: path))
      | _ => cases h
  | .struct xs, b, h, hkinds => by
      cases b with
      | struct ys =>
          have hshape : shapeFields xs = shapeFields ys := by simpa [shape] using h
          exact congrArg struct (eq_of_shapeFields xs ys hshape fun i path => hkinds (i :: path))
      | _ => cases h
  | .closure c, b, h, _ => by
      cases b <;> cases h
      rfl
  | .closureSet cs, b, h, _ => by
      cases b <;> cases h
      rfl
  | .slice x y z, b, h, hkinds => by
      cases b with
      | slice x' y' z' =>
          obtain ⟨hx, hy, hz⟩ : x.shape = x'.shape ∧ y.shape = y'.shape ∧ z.shape = z'.shape := by
            simpa [shape] using h
          rw [eq_of_shape x x' hx fun path => hkinds (0 :: path),
            eq_of_shape y y' hy fun path => hkinds (1 :: path),
            eq_of_shape z z' hz fun path => hkinds (2 :: path)]
      | _ => cases h
  | .none, b, h, _ => by
      cases b <;> cases h
      rfl
  termination_by structural a => a

theorem eq_of_shapeList : ∀ xs ys : List Ty, shapeList xs = shapeList ys →
    (∀ (i : Nat) path, (xs[i]?).elim .bool (kindAt path) = (ys[i]?).elim .bool (kindAt path)) →
    xs = ys
  | [], ys, h, _ => by
      cases ys
      · rfl
      · cases h
  | x :: xs, ys, h, hkinds => by
      cases ys with
      | nil => cases h
      | cons y ys =>
          obtain ⟨hfirst, hrest⟩ := List.cons.inj h
          rw [eq_of_shape x y hfirst fun path => hkinds 0 path,
            eq_of_shapeList xs ys hrest fun i path => hkinds (i + 1) path]
  termination_by structural xs => xs

theorem eq_of_shapeFields : ∀ xs ys : List (String × Ty), shapeFields xs = shapeFields ys →
    (∀ (i : Nat) path, ((xs.map Prod.snd)[i]?).elim .bool (kindAt path) =
      ((ys.map Prod.snd)[i]?).elim .bool (kindAt path)) → xs = ys
  | [], ys, h, _ => by
      cases ys
      · rfl
      · cases h
  | (m, x) :: xs, ys, h, hkinds => by
      cases ys with
      | nil => cases h
      | cons field ys =>
          obtain ⟨n, y⟩ := field
          obtain ⟨hfirst, hrest⟩ := List.cons.inj h
          obtain ⟨hname, hshape⟩ := Prod.mk.inj hfirst
          rw [hname, eq_of_shape x y hshape fun path => hkinds 0 path,
            eq_of_shapeFields xs ys hrest fun i path => hkinds (i + 1) path]
  termination_by structural xs => xs

end

end Ext

section Kinds

theorem combineLists_of_combineFields {xs ys zs : List (String × Ty)}
    (hkeys : NameMap.keys xs = NameMap.keys ys) (h : combineFields Scalar.promote xs ys = .ok zs) :
    combineLists Scalar.promote (xs.map Prod.snd) (ys.map Prod.snd) = .ok (zs.map Prod.snd) := by
  induction xs generalizing ys zs with
  | nil =>
      obtain rfl : ys = [] := List.map_eq_nil_iff.mp hkeys.symm
      cases h
      rfl
  | cons field xs ih =>
      cases ys with
      | nil => cases hkeys
      | cons field' ys =>
          obtain ⟨z, rest, rfl, hz, hrest⟩ := combineFields_cons h
          have hrest := ih (List.cons.inj hkeys).2 hrest
          have hz : combineWith Scalar.promote field.2 field'.2 = .ok z := hz
          simp only [List.map_cons, combineLists, hz, hrest]
          rfl

-- Types that join, if both are known, have as many parts, which are joined one by one.
theorem children_of_joins {a b c : Ty} (h : Joins a b c) (ha : a ≠ .unknown) (hb : b ≠ .unknown) :
    c.kind = a.kind.promote b.kind ∧ a.children.length = b.children.length ∧
      combineLists Scalar.promote a.children b.children = .ok c.children := by
  cases h with
  | same =>
      refine ⟨(Scalar.promote_self _).symm, rfl, combineLists_self _ _⟩
  | left => exact absurd rfl ha
  | right => exact absurd rfl hb
  | scalar => exact ⟨rfl, rfl, rfl⟩
  | array => exact ⟨kind_ofRank _ _, rfl, by rw [children_ofRank]; rfl⟩
  | tuple hlength hzs => exact ⟨rfl, hlength, hzs⟩
  | struct hkeys hzs =>
      refine ⟨rfl, ?_, combineLists_of_combineFields hkeys hzs⟩
      simpa [children, NameMap.keys] using congrArg List.length hkeys
  | slice hx hy hz =>
      unfold combine at hx hy hz
      refine ⟨rfl, rfl, ?_⟩
      simp only [children, combineLists, hx, hy, hz]
      rfl
  | closures | closureSet | setClosure | sets => exact ⟨rfl, rfl, rfl⟩

theorem elim_combineLists {f : Ty → Scalar}
    (hf : ∀ {a b c : Ty}, a.combine b = .ok c → f c = (f a).promote (f b)) :
    ∀ {xs ys zs : List Ty}, xs.length = ys.length → combineLists Scalar.promote xs ys = .ok zs →
      ∀ i : Nat, (zs[i]?).elim .bool f = ((xs[i]?).elim .bool f).promote ((ys[i]?).elim .bool f)
  | [], [], _, _, h, i => by
      cases h
      simp
  | x :: xs, y :: ys, _, hlength, h, i => by
      obtain ⟨z, rest, rfl, hz, hrest⟩ := combineLists_cons h
      cases i with
      | zero => simpa using hf hz
      | succ i => simpa using elim_combineLists hf (Nat.succ.inj hlength) hrest i

-- At every place, a join has the kind that the kinds there are promoted to.
theorem kindAt_combine : ∀ {path : List Nat} {a b c : Ty}, a.combine b = .ok c →
    kindAt path c = (kindAt path a).promote (kindAt path b) := by
  intro path a b c h
  by_cases ha : a = .unknown
  · subst ha
    rw [combine_unknown_left] at h
    cases h
    rw [kindAt_unknown, Scalar.bool_promote]
  by_cases hb : b = .unknown
  · subst hb
    rw [combine_unknown_right h, kindAt_unknown, Scalar.promote_bool]
  obtain ⟨hkind, hlength, hchildren⟩ := children_of_joins (joins_of_combine h) ha hb
  cases path with
  | nil => exact hkind
  | cons i path =>
      have hinner : ∀ {a b c : Ty}, a.combine b = .ok c →
          kindAt path c = (kindAt path a).promote (kindAt path b) := kindAt_combine
      exact elim_combineLists hinner hlength hchildren i

end Kinds

section Shapes

theorem combine_scalar (k l : Scalar) :
    (scalar k).combine (scalar l) = .ok (scalar (k.promote l)) := by
  by_cases heq : k = l
  · subst heq
    rw [combine_self, Scalar.promote_self]
  · unfold combine combineWith
    rw [if_neg (by simpa using heq)]

theorem combine_array (k l : Scalar) {n : Nat} (hn : 0 < n) :
    (array k n).combine (array l n) = .ok (ofRank (k.promote l) n) := by
  by_cases heq : k = l
  · subst heq
    rw [combine_self, Scalar.promote_self, ofRank_of_pos k hn]
  · unfold combine combineWith
    rw [if_neg (by simpa using heq)]
    exact if_pos rfl

theorem combine_closures {c d : Closure} (hne : c ≠ d) :
    (closure c).combine (closure d) = .ok (closureSet (ClosureSet.insert d [c]).2) := by
  unfold combine combineWith
  rw [if_neg (by simpa using hne)]
  rfl

theorem combine_closure_set (c : Closure) (ds : List Closure) :
    (closure c).combine (closureSet ds) = .ok (closureSet (ClosureSet.insert c ds).2) := rfl

theorem combine_set_closure (cs : List Closure) (d : Closure) :
    (closureSet cs).combine (closure d) = .ok (closureSet (ClosureSet.insert d cs).2) := rfl

theorem combine_sets {cs ds : ClosureSet} (hcs : cs.Sorted) (hds : ds.Sorted) :
    (closureSet cs).combine (closureSet ds) = .ok (closureSet (ClosureSet.union cs ds)) := by
  by_cases heq : cs = ds
  · subst heq
    rw [combine_self, ClosureSet.Sorted.union_of_subset hcs hds (List.Subset.refl _)]
  · unfold combine combineWith
    rw [if_neg (by simpa using heq)]

-- Types whose joins are defined by their shapes: arrays have dimensions, and the members of
-- a set stand in their order, if there are any.
def Regular : Ty → Prop
  | .array _ rank => 0 < rank
  | .closureSet members => ClosureSet.Sorted members
  | _ => True

instance : DecidablePred Regular
  | .array _ rank => inferInstanceAs (Decidable (0 < rank))
  | .closureSet members => inferInstanceAs (Decidable (ClosureSet.Sorted members))
  | .unknown | .scalar _ | .tuple _ | .struct _ | .closure _ | .slice .. | .none =>
    inferInstanceAs (Decidable True)

theorem stable_regular : Stable Regular where
  scalar _ := trivial
  array _ _ h := h
  tuple _ := trivial
  struct _ := trivial
  closure _ := trivial
  slice _ _ _ := trivial
  none := trivial
  empty _ := trivial
  singleton member := ClosureSet.sorted_singleton member
  insert member h := h.insert member

theorem Regular.ordered {ty : Ty} (h : Regular ty) : Ordered ty := by
  cases ty with
  | closureSet members => exact h
  | _ => trivial

mutual

-- The order of types is one of their shapes as well.
theorem Below.shape : ∀ {a b : Ty}, Below a b → Below a.shape b.shape
  | _, _, .unknown => .unknown
  | _, _, .scalar _ => .scalar rfl
  | _, _, .array _ => .array rfl
  | _, _, .flat _ => .flat rfl
  | .tuple xs, .tuple _, .tuple h => .tuple (forall₂_shapeList xs h)
  | .struct xs, .struct ys, .struct hkeys h => by
      refine .struct ?_ ?_
      · rw [keys_shapeFields, keys_shapeFields, hkeys]
      · rw [shapeFields_snd ys]
        exact forall₂_shapeFields xs h
  | .slice _ _ _, .slice _ _ _, .slice hx hy hz =>
      .slice (Below.shape hx) (Below.shape hy) (Below.shape hz)
  | _, _, .closure => .closure
  | _, _, .member h => .member h
  | _, _, .closureSet h => .closureSet h
  | _, _, .none => .none
  termination_by structural a => a

theorem forall₂_shapeList : ∀ (xs : List Ty) {ys : List Ty}, List.Forall₂ Below xs ys →
    List.Forall₂ Below (shapeList xs) (shapeList ys)
  | [], _, .nil => .nil
  | _ :: xs, _, .cons h hs => .cons (Below.shape h) (forall₂_shapeList xs hs)
  termination_by structural xs => xs

theorem forall₂_shapeFields : ∀ (xs : List (String × Ty)) {ys : List Ty},
    List.Forall₂ Below (xs.map Prod.snd) ys →
    List.Forall₂ Below ((shapeFields xs).map Prod.snd) (shapeList ys)
  | [], _, .nil => .nil
  | (_, _) :: xs, _, .cons h hs => .cons (Below.shape h) (forall₂_shapeFields xs hs)
  termination_by structural xs => xs

end

theorem Below.insert {c : Closure} {cs ds : ClosureSet} (hc : c ∈ ds) (hcs : cs ⊆ ds) :
    Below (.closureSet (ClosureSet.insert c cs).2) (.closureSet ds) :=
  .closureSet fun _ => ClosureSet.forall_mem_insert.mpr ⟨hc, fun _ hmem => hcs hmem⟩ _

-- What closures join to has no other members than an upper bound of them.
theorem exists_combine_closure (c : Closure) {b s : Ty} (h : Below (closure c) s)
    (h' : Below b.shape s) : ∃ joined, (closure c).combine b = .ok joined ∧ Below joined.shape s := by
  cases b with
  | unknown => exact ⟨_, combineWith_unknown_right _ _, h⟩
  | closure d =>
      by_cases heq : c = d
      · subst heq
        exact ⟨_, combine_self _, h⟩
      · cases h with
        | closure =>
            cases h'
            exact absurd rfl heq
        | member h =>
            cases h' with
            | member h' =>
                have hsub : [c] ⊆ _ := List.cons_subset.mpr ⟨h, List.nil_subset _⟩
                exact ⟨_, combine_closures heq, .insert h' hsub⟩
  | closureSet cs =>
      cases h' with
      | closureSet h' =>
          cases h with
          | member h => exact ⟨_, combine_closure_set c cs, .insert h h'⟩
  | _ => cases h <;> cases h'

theorem exists_combine_closureSet {cs : ClosureSet} {b s : Ty} (hcs : cs.Sorted) (hb : Regular b)
    (h : Below (closureSet cs) s) (h' : Below b.shape s) :
    ∃ joined, (closureSet cs).combine b = .ok joined ∧ Below joined.shape s := by
  cases h with
  | closureSet h =>
      cases b with
      | unknown => exact ⟨_, combineWith_unknown_right _ _, .closureSet h⟩
      | closure d =>
          cases h' with
          | member h' => exact ⟨_, combine_set_closure cs d, .insert h' h⟩
      | closureSet ds =>
          cases h' with
          | closureSet h' =>
              have hsub : ClosureSet.union cs ds ⊆ _ := fun _ =>
                ClosureSet.forall_mem_union.mpr ⟨fun _ hmem => h hmem, fun _ hmem => h' hmem⟩ _
              exact ⟨_, combine_sets hcs hb, .closureSet hsub⟩
      | _ => cases h'

mutual

-- Types whose shapes have an upper bound do join, and the shape of the join is the least one.
-- So joins fail for the shapes of types, never for their kinds.
theorem exists_combine : ∀ (a b : Ty) {s : Ty}, AllParts Regular a → AllParts Regular b →
    Below a.shape s → Below b.shape s → ∃ c, a.combine b = .ok c ∧ Below c.shape s
  | .unknown, b, _, _, _, _, h' => ⟨b, combine_unknown_left b, h'⟩
  | .scalar k, b, s, _, hb, h, h' => by
      cases h with
      | scalar h =>
          cases b with
          | unknown => exact ⟨_, combineWith_unknown_right _ _, .scalar h⟩
          | scalar l => exact ⟨_, combine_scalar k l, .scalar h⟩
          | array l n =>
              cases h'
              exact absurd hb.self (Nat.lt_irrefl 0)
          | _ => cases h'
  | .array k n, b, s, ha, hb, h, h' => by
      cases h with
      | flat _ => exact absurd ha.self (Nat.lt_irrefl 0)
      | array h =>
          cases b with
          | unknown => exact ⟨_, combineWith_unknown_right _ _, .array h⟩
          | array l m =>
              cases h'
              refine ⟨_, combine_array k l ha.self, ?_⟩
              rw [ofRank_of_pos _ ha.self]
              exact .array h
          | _ => cases h'
  | .tuple xs, b, s, ha, hb, h, h' => by
      cases h with
      | tuple h =>
          cases b with
          | unknown => exact ⟨_, combineWith_unknown_right _ _, .tuple h⟩
          | tuple ys =>
              cases h' with
              | tuple h' =>
                  obtain ⟨cs, hcs, hbelow⟩ := exists_combineLists xs ys (allParts_tuple.mp ha).2
                    (allParts_tuple.mp hb).2 h h'
                  have hlength : xs.length = ys.length := by
                    simpa using h.length_eq.trans h'.length_eq.symm
                  refine ⟨.tuple cs, ?_, .tuple hbelow⟩
                  unfold combine
                  rw [combineWith_tuple _ hlength, hcs]
                  rfl
          | _ => cases h'
  | .struct xs, b, s, ha, hb, h, h' => by
      cases h with
      | struct hkeys h =>
          cases b with
          | unknown => exact ⟨_, combineWith_unknown_right _ _, .struct hkeys h⟩
          | struct ys =>
              cases h' with
              | struct hkeys' h' =>
                  have hsame : NameMap.keys xs = NameMap.keys ys := by
                    rw [← keys_shapeFields, hkeys, ← hkeys', keys_shapeFields]
                  obtain ⟨cs, hcs, hnames, hbelow⟩ := exists_combineFields xs ys hsame
                    (allParts_struct.mp ha).2 (allParts_struct.mp hb).2 h h'
                  refine ⟨.struct cs, ?_, .struct ?_ hbelow⟩
                  · unfold combine
                    rw [combineWith_struct _ hsame, hcs]
                    rfl
                  · rw [keys_shapeFields, hnames, ← keys_shapeFields, hkeys]
          | _ => cases h'
  | .closure c, _, _, _, _, h, h' => exists_combine_closure c h h'
  | .closureSet _, _, _, ha, hb, h, h' => exists_combine_closureSet ha.self hb.self h h'
  | .slice x y z, b, s, ha, hb, h, h' => by
      cases h with
      | slice hx hy hz =>
          cases b with
          | unknown => exact ⟨_, combineWith_unknown_right _ _, .slice hx hy hz⟩
          | slice x' y' z' =>
              cases h' with
              | slice hx' hy' hz' =>
                  obtain ⟨-, hax, hay, haz⟩ := allParts_slice.mp ha
                  obtain ⟨-, hbx, hby, hbz⟩ := allParts_slice.mp hb
                  obtain ⟨cx, hcx, hx⟩ := exists_combine x x' hax hbx hx hx'
                  obtain ⟨cy, hcy, hy⟩ := exists_combine y y' hay hby hy hy'
                  obtain ⟨cz, hcz, hz⟩ := exists_combine z z' haz hbz hz hz'
                  refine ⟨.slice cx cy cz, ?_, .slice hx hy hz⟩
                  unfold combine at *
                  rw [combineWith_slice, hcx, hcy, hcz]
                  rfl
          | _ => cases h'
  | .none, b, s, _, hb, h, h' => by
      cases h with
      | none =>
          cases b with
          | unknown => exact ⟨_, combineWith_unknown_right _ _, .none⟩
          | none => exact ⟨_, combine_self _, .none⟩
          | _ => cases h'
  termination_by structural a => a

theorem exists_combineLists : ∀ (xs ys : List Ty) {zs : List Ty}, (∀ x ∈ xs, AllParts Regular x) →
    (∀ y ∈ ys, AllParts Regular y) → List.Forall₂ Below (shapeList xs) zs →
    List.Forall₂ Below (shapeList ys) zs →
    ∃ cs, combineLists Scalar.promote xs ys = .ok cs ∧ List.Forall₂ Below (shapeList cs) zs
  | [], _, _, _, _, h, _ => ⟨[], rfl, h⟩
  | x :: xs, [], _, _, _, h, h' => by
      cases h'
      cases h
  | x :: xs, y :: ys, _, hxs, hys, h, h' => by
      obtain ⟨hx, hxs⟩ := List.forall_mem_cons.mp hxs
      obtain ⟨hy, hys⟩ := List.forall_mem_cons.mp hys
      cases h with
      | cons h hs =>
          cases h' with
          | cons h' hs' =>
              obtain ⟨c, hc, hfirst⟩ := exists_combine x y hx hy h h'
              obtain ⟨cs, hcs, hrest⟩ := exists_combineLists xs ys hxs hys hs hs'
              unfold combine at hc
              exact ⟨c :: cs, by simp only [combineLists, hc, hcs]; rfl, .cons hfirst hrest⟩
  termination_by structural xs => xs

theorem exists_combineFields : ∀ (xs ys : List (String × Ty)) {zs : List Ty},
    NameMap.keys xs = NameMap.keys ys → (∀ x ∈ xs, AllParts Regular x.2) →
    (∀ y ∈ ys, AllParts Regular y.2) → List.Forall₂ Below ((shapeFields xs).map Prod.snd) zs →
    List.Forall₂ Below ((shapeFields ys).map Prod.snd) zs →
    ∃ cs, combineFields Scalar.promote xs ys = .ok cs ∧ NameMap.keys cs = NameMap.keys xs ∧
      List.Forall₂ Below ((shapeFields cs).map Prod.snd) zs
  | [], _, _, _, _, _, h, _ => ⟨[], rfl, rfl, h⟩
  | (m, x) :: xs, (n, y) :: ys, _, hkeys, hxs, hys, h, h' => by
      obtain ⟨hx, hxs⟩ := List.forall_mem_cons.mp hxs
      obtain ⟨hy, hys⟩ := List.forall_mem_cons.mp hys
      cases h with
      | cons h hs =>
          cases h' with
          | cons h' hs' =>
              obtain ⟨c, hc, hfirst⟩ := exists_combine x y hx hy h h'
              obtain ⟨cs, hcs, hnames, hrest⟩ :=
                exists_combineFields xs ys (List.cons.inj hkeys).2 hxs hys hs hs'
              unfold combine at hc
              refine ⟨(m, c) :: cs, by simp only [combineFields, hc, hcs]; rfl, ?_,
                .cons hfirst hrest⟩
              exact congrArg (m :: ·) hnames
  termination_by structural xs => xs

end

end Shapes

end RankPoly.Ty
