import Mathlib.Data.Option.NAry
import RankPoly.Proofs.Ty.Shape

namespace RankPoly

namespace Scalar

-- How kinds are grouped makes no difference.
def Policy.Associative (join : Policy) : Prop :=
  ∀ k l m, join (join k l) m = join k (join l m)

-- A kind that meets itself stays as it is.
def Policy.Idempotent (join : Policy) : Prop :=
  ∀ k, join k k = k

end Scalar

namespace ClosureSet

variable {set set' set'' : ClosureSet}

theorem Sorted.union_assoc (hset : set.Sorted) :
    ClosureSet.union (ClosureSet.union set set') set'' =
      ClosureSet.union set (ClosureSet.union set' set'') := by
  refine hset.union.union.ext hset.union fun member => ?_
  simp only [mem_union, or_assoc]

theorem Sorted.union_self (hset : set.Sorted) : ClosureSet.union set set = set :=
  hset.union_of_subset hset (List.Subset.refl _)

theorem Sorted.insert_eq_union (hset : set.Sorted) (closure : Closure) :
    (ClosureSet.insert closure set).2 = ClosureSet.union [closure] set := by
  refine (hset.insert closure).ext (sorted_singleton closure).union fun member => ?_
  rw [mem_insert, mem_union, List.mem_singleton]

end ClosureSet

namespace Ty

section Partial

variable (join : Scalar.Policy)

-- The join of two types, if there is one.
def join? (a b : Ty) : Option Ty :=
  (a.combineWith join b).toOption

def joinLists? (xs ys : List Ty) : Option (List Ty) :=
  (combineLists join xs ys).toOption

def joinFields? (xs ys : List (String × Ty)) : Option (List (String × Ty)) :=
  (combineFields join xs ys).toOption

def joinPair? (x y : Ty × Ty) : Option (Ty × Ty) :=
  Option.map₂ Prod.mk (join? join x.1 y.1) (join? join x.2 y.2)

theorem join?_self (ty : Ty) : join? join ty ty = some ty := by
  unfold join?
  rw [combineWith_self]
  rfl

theorem join?_unknown_left (ty : Ty) : join? join .unknown ty = some ty := by
  unfold join?
  rw [combineWith_unknown_left]
  rfl

theorem join?_unknown_right (ty : Ty) : join? join ty .unknown = some ty := by
  unfold join?
  rw [combineWith_unknown_right]
  rfl

theorem join?_of_ne {a b : Ty} {result : Option Ty} (hself : a = b → result = some a)
    (h : a ≠ b → join? join a b = result) : join? join a b = result := by
  by_cases heq : a = b
  · rw [hself heq, ← heq, join?_self]
  · exact h heq

variable {join}

theorem join?_scalar (hjoin : join.Idempotent) (k l : Scalar) :
    join? join (.scalar k) (.scalar l) = some (.scalar (join k l)) := by
  refine join?_of_ne join (fun heq => ?_) fun hne => ?_
  · cases heq
    rw [hjoin]
  · unfold join? combineWith
    rw [if_neg hne]
    rfl

theorem join?_array (hjoin : join.Idempotent) (k l : Scalar) {n : Nat} (hn : 0 < n) :
    join? join (.array k n) (.array l n) = some (.array (join k l) n) := by
  refine join?_of_ne join (fun heq => ?_) fun hne => ?_
  · cases heq
    rw [hjoin]
  · unfold join? combineWith
    rw [if_neg hne]
    simp only [if_true, ofRank_of_pos (join k l) hn]
    rfl

theorem join?_tuple {xs ys : List Ty} (h : xs.length = ys.length) :
    join? join (.tuple xs) (.tuple ys) = (joinLists? join xs ys).map .tuple := by
  unfold join? joinLists?
  rw [combineWith_tuple join h]
  cases combineLists join xs ys <;> rfl

theorem join?_struct {xs ys : List (String × Ty)} (h : NameMap.keys xs = NameMap.keys ys) :
    join? join (.struct xs) (.struct ys) = (joinFields? join xs ys).map .struct := by
  unfold join? joinFields?
  rw [combineWith_struct join h]
  cases combineFields join xs ys <;> rfl

theorem join?_slice (x y z x' y' z' : Ty) :
    join? join (.slice x y z) (.slice x' y' z') =
      Option.map₂ (fun start rest => .slice start rest.1 rest.2) (join? join x x')
        (joinPair? join (y, z) (y', z')) := by
  unfold joinPair? join?
  rw [combineWith_slice]
  cases combineWith join x x' <;> try rfl
  cases combineWith join y y' <;> try rfl
  cases combineWith join z z' <;> rfl

theorem joinLists?_cons (x y : Ty) (xs ys : List Ty) :
    joinLists? join (x :: xs) (y :: ys) =
      Option.map₂ List.cons (join? join x y) (joinLists? join xs ys) := by
  unfold joinLists? join?
  rw [combineLists]
  cases combineWith join x y <;> try rfl
  cases combineLists join xs ys <;> rfl

theorem joinFields?_cons (m n : String) (x y : Ty) (xs ys : List (String × Ty)) :
    joinFields? join ((m, x) :: xs) ((n, y) :: ys) =
      Option.map₂ (fun z zs => (m, z) :: zs) (join? join x y) (joinFields? join xs ys) := by
  unfold joinFields? join?
  rw [combineFields]
  cases combineWith join x y <;> try rfl
  cases combineFields join xs ys <;> rfl

end Partial

section AssocAt

-- Three that are joined, grouped either way, come to the same, or to nothing either way.
def AssocAt {α : Type} (op : α → α → Option α) (a b c : α) : Prop :=
  (op a b).bind (op · c) = (op b c).bind (op a ·)

-- What is joined part by part can be grouped as its parts can.
theorem AssocAt.map₂ {α β γ : Type} (mk : α → β → γ) {op : γ → γ → Option γ}
    {f : α → α → Option α} {g : β → β → Option β}
    (hop : ∀ x x' y y', op (mk x y) (mk x' y') = Option.map₂ mk (f x x') (g y y'))
    {x x' x'' : α} {y y' y'' : β} (hf : AssocAt f x x' x'') (hg : AssocAt g y y' y'') :
    AssocAt op (mk x y) (mk x' y') (mk x'' y'') := by
  have hbind : ∀ {next : γ → Option γ} {next₁ : α → Option α} {next₂ : β → Option β},
      (∀ u v, next (mk u v) = Option.map₂ mk (next₁ u) (next₂ v)) →
      ∀ (o : Option α) (o' : Option β), (Option.map₂ mk o o').bind next =
        Option.map₂ mk (o.bind next₁) (o'.bind next₂) := by
    intro next next₁ next₂ hnext o o'
    cases o with
    | none => rfl
    | some u =>
        cases o' with
        | none => exact (Option.map₂_none_right mk _).symm
        | some v => exact hnext u v
  unfold AssocAt at *
  rw [hop, hop, hbind (fun u v => hop u x'' v y''), hbind (fun u v => hop x u y v), hf, hg]

-- Where parts are put into a whole, of which only those are joined that have something in
-- common.
theorem AssocAt.map {α β : Type} {mk : α → β} {op : β → β → Option β} {f : α → α → Option α}
    {x y z : α} (hxy : op (mk x) (mk y) = (f x y).map mk) (hyz : op (mk y) (mk z) = (f y z).map mk)
    (hleft : ∀ u, f x y = some u → op (mk u) (mk z) = (f u z).map mk)
    (hright : ∀ u, f y z = some u → op (mk x) (mk u) = (f x u).map mk) (h : AssocAt f x y z) :
    AssocAt op (mk x) (mk y) (mk z) := by
  have hbind : ∀ (o : Option α) {next : β → Option β} {next' : α → Option α},
      (∀ u, o = some u → next (mk u) = (next' u).map mk) →
      (o.map mk).bind next = (o.bind next').map mk := by
    intro o next next' hnext
    cases o with
    | none => rfl
    | some u => exact hnext u rfl
  unfold AssocAt at *
  rw [hxy, hyz, hbind _ hleft, hbind _ hright, h]

end AssocAt

section Heads

-- What types have to have in common to be joined.
inductive Head where
  | unknown
  | scalar
  | array (rank : Nat)
  | tuple (length : Nat)
  | struct (names : List String)
  | callable
  | slice
  | none
  deriving DecidableEq

def head : Ty → Head
  | .unknown => .unknown
  | .scalar _ => .scalar
  | .array _ rank => .array rank
  | .tuple elems => .tuple elems.length
  | .struct fields => .struct (NameMap.keys fields)
  | .closure _ | .closureSet _ => .callable
  | .slice .. => .slice
  | .none => .none

variable {join : Scalar.Policy} {a b c : Ty}

theorem join?_of_head_ne (ha : a ≠ .unknown) (hb : b ≠ .unknown) (h : a.head ≠ b.head) :
    join? join a b = Option.none := by
  have hne : a ≠ b := fun heq => h (congrArg head heq)
  unfold join? combineWith
  rw [if_neg hne]
  cases a <;> cases b <;> simp_all [head, Except.toOption]

theorem length_of_joinLists? : ∀ {xs ys zs : List Ty}, xs.length = ys.length →
    joinLists? join xs ys = some zs → zs.length = xs.length
  | [], [], _, _, h => by
      cases h
      rfl
  | x :: xs, y :: ys, zs, hlength, h => by
      rw [joinLists?_cons] at h
      obtain ⟨z, rest, -, hrest, rfl⟩ := Option.map₂_eq_some_iff.mp h
      exact congrArg (· + 1) (length_of_joinLists? (Nat.succ.inj hlength) hrest)

theorem keys_of_joinFields? : ∀ {xs ys zs : List (String × Ty)},
    NameMap.keys xs = NameMap.keys ys → joinFields? join xs ys = some zs →
    NameMap.keys zs = NameMap.keys xs
  | [], [], _, _, h => by
      cases h
      rfl
  | (m, x) :: xs, (n, y) :: ys, zs, hkeys, h => by
      rw [joinFields?_cons] at h
      obtain ⟨z, rest, -, hrest, rfl⟩ := Option.map₂_eq_some_iff.mp h
      exact congrArg (m :: ·) (keys_of_joinFields? (List.cons.inj hkeys).2 hrest)

end Heads

section Callables

variable {join : Scalar.Policy} {a b c : Ty} {cs ds es : List Closure}

theorem exists_members (h : a.head = .callable) : ∃ cs, a.members? = some cs := by
  cases a <;> cases h <;> exact ⟨_, rfl⟩

theorem Ordered.sorted_members (h : Ordered a) (ha : a.members? = some cs) :
    ClosureSet.Sorted cs := by
  cases a <;> cases ha
  · exact ClosureSet.sorted_singleton _
  · exact h

-- Closures and sets of closures that are not the same are joined to the set of all that they
-- may stand for.
theorem join?_members (hb : Ordered b) (hcs : a.members? = some cs) (hds : b.members? = some ds)
    (hne : a ≠ b) : join? join a b = some (.closureSet (ClosureSet.union cs ds)) := by
  unfold join? combineWith
  rw [if_neg hne]
  cases a <;> cases hcs <;> cases b <;> cases hds
  · rfl
  · rw [← ClosureSet.Sorted.insert_eq_union hb]
    rfl
  · rfl
  · rfl

-- With a set, it makes no difference whether they are the same.
theorem join?_set_left {set : ClosureSet} (hset : set.Sorted) (hb : Ordered b)
    (hds : b.members? = some ds) :
    join? join (.closureSet set) b = some (.closureSet (ClosureSet.union set ds)) := by
  refine join?_of_ne join (fun heq => ?_) (join?_members hb rfl hds)
  subst heq
  cases hds
  rw [hset.union_self]

theorem join?_set_right {set : ClosureSet} (hset : set.Sorted) (hcs : a.members? = some cs) :
    join? join a (.closureSet set) = some (.closureSet (ClosureSet.union cs set)) := by
  refine join?_of_ne join (fun heq => ?_) (join?_members hset hcs rfl)
  subst heq
  cases hcs
  rw [hset.union_self]

theorem head_of_join?_members (hb : Ordered b) (hcs : a.members? = some cs)
    (hds : b.members? = some ds) (h : join? join a b = some c) : c.head = .callable := by
  by_cases heq : a = b
  · rw [heq, join?_self] at h
    cases h
    cases b <;> cases hds <;> rfl
  · rw [join?_members hb hcs hds heq] at h
    cases h
    rfl

theorem assocAt_members (ha : Ordered a) (hb : Ordered b) (hc : Ordered c)
    (hcs : a.members? = some cs) (hds : b.members? = some ds) (hes : c.members? = some es) :
    AssocAt (join? join) a b c := by
  unfold AssocAt
  have hsorted : ClosureSet.Sorted cs := ha.sorted_members hcs
  have hsorted' : ClosureSet.Sorted ds := hb.sorted_members hds
  by_cases hab : a = b
  · subst hab
    obtain rfl : cs = ds := Option.some.inj (hcs.symm.trans hds)
    by_cases hac : a = c
    · subst hac
      rw [join?_self]
      rfl
    · rw [join?_self, join?_members hc hcs hes hac, Option.bind_some, Option.bind_some,
        join?_members hc hcs hes hac, join?_set_right hsorted.union hcs, ← hsorted.union_assoc,
        hsorted.union_self]
  · by_cases hbc : b = c
    · subst hbc
      rw [join?_self, join?_members hb hcs hds hab, Option.bind_some, Option.bind_some,
        join?_members hb hcs hds hab, join?_set_left hsorted.union hb hds, hsorted.union_assoc,
        hsorted'.union_self]
    · rw [join?_members hb hcs hds hab, join?_members hc hds hes hbc, Option.bind_some,
        Option.bind_some, join?_set_left hsorted.union hc hes,
        join?_set_right hsorted'.union hcs, hsorted.union_assoc]

end Callables

section Associative

variable {join : Scalar.Policy} {a b c : Ty}

-- A join is of the form that the joined types have.
theorem head_of_join? (hidem : join.Idempotent) (ha : a ≠ .unknown) (hb : b ≠ .unknown)
    (hregular : Regular a) (hordered : Ordered b) (h : join? join a b = some c) :
    c.head = a.head := by
  by_cases hhead : a.head = b.head
  · cases a with
    | unknown => exact absurd rfl ha
    | scalar k =>
        cases b <;> cases hhead
        rw [join?_scalar hidem] at h
        cases h
        rfl
    | array k n =>
        cases b <;> cases hhead
        rw [join?_array hidem _ _ hregular] at h
        cases h
        rfl
    | tuple xs =>
        cases b <;> try cases hhead
        rename_i ys
        have hlength : xs.length = ys.length := Head.tuple.inj hhead
        rw [join?_tuple hlength] at h
        obtain ⟨zs, hzs, rfl⟩ := Option.map_eq_some_iff.mp h
        exact congrArg Head.tuple (length_of_joinLists? hlength hzs)
    | struct xs =>
        cases b <;> try cases hhead
        rename_i ys
        have hkeys : NameMap.keys xs = NameMap.keys ys := Head.struct.inj hhead
        rw [join?_struct hkeys] at h
        obtain ⟨zs, hzs, rfl⟩ := Option.map_eq_some_iff.mp h
        exact congrArg Head.struct (keys_of_joinFields? hkeys hzs)
    | closure _ | closureSet _ =>
        obtain ⟨ds, hds⟩ := exists_members hhead.symm
        exact head_of_join?_members hordered rfl hds h
    | slice x y z =>
        cases b <;> cases hhead
        rw [join?_slice] at h
        obtain ⟨_, _, -, -, rfl⟩ := Option.map₂_eq_some_iff.mp h
        rfl
    | none =>
        cases b <;> cases hhead
        cases h
        rfl
  · rw [join?_of_head_ne ha hb hhead] at h
    cases h

theorem ne_unknown_of_head (h : a.head = b.head) (hb : b ≠ .unknown) : a ≠ .unknown := by
  rintro rfl
  cases b <;> cases h
  exact hb rfl

-- Only types of one form, about which something is known, have to be looked at.
theorem assocAt_of_heads (hidem : join.Idempotent) (ha : AllParts Regular a)
    (hb : AllParts Regular b) (hc : AllParts Regular c)
    (h : a ≠ .unknown → a.head = b.head → b.head = c.head → AssocAt (join? join) a b c) :
    AssocAt (join? join) a b c := by
  by_cases hua : a = .unknown
  · unfold AssocAt
    simp only [hua, join?_unknown_left, Option.bind_some, Option.bind_fun_some]
  by_cases hub : b = .unknown
  · unfold AssocAt
    simp only [hub, join?_unknown_left, join?_unknown_right, Option.bind_some]
  by_cases huc : c = .unknown
  · unfold AssocAt
    simp only [huc, join?_unknown_right, Option.bind_some, Option.bind_fun_some]
  by_cases hab : a.head = b.head
  · by_cases hbc : b.head = c.head
    · exact h hua hab hbc
    · unfold AssocAt
      rw [join?_of_head_ne hub huc hbc, Option.bind_none, Option.bind_eq_none_iff]
      intro d hd
      have hhead : d.head = a.head := head_of_join? hidem hua hub ha.self hb.self.ordered hd
      exact join?_of_head_ne (ne_unknown_of_head hhead hua) huc
        fun heq => hbc (hab.symm.trans (hhead.symm.trans heq))
  · unfold AssocAt
    rw [join?_of_head_ne hua hub hab, Option.bind_none, eq_comm, Option.bind_eq_none_iff]
    intro d hd
    have hhead : d.head = b.head := head_of_join? hidem hub huc hb.self hc.self.ordered hd
    exact join?_of_head_ne hua (ne_unknown_of_head hhead hub) fun heq => hab (heq.trans hhead)

mutual

-- Joins can be grouped in any way if kinds can.
theorem join?_assoc (hassoc : join.Associative) (hidem : join.Idempotent) : ∀ a b c : Ty,
    AllParts Regular a → AllParts Regular b → AllParts Regular c → AssocAt (join? join) a b c
  | .unknown, b, c, ha, hb, hc =>
      assocAt_of_heads hidem ha hb hc fun hknown => absurd rfl hknown
  | .scalar k, b, c, ha, hb, hc => by
      refine assocAt_of_heads hidem ha hb hc fun _ hab hbc => ?_
      cases b <;> cases hab
      cases c <;> cases hbc
      simp only [AssocAt, join?_scalar hidem, Option.bind_some]
      exact congrArg (some ∘ scalar) (hassoc k _ _)
  | .array k n, b, c, ha, hb, hc => by
      refine assocAt_of_heads hidem ha hb hc fun _ hab hbc => ?_
      cases b <;> cases hab
      cases c <;> cases hbc
      simp only [AssocAt, join?_array hidem _ _ ha.self, Option.bind_some]
      exact congrArg (some ∘ (array · n)) (hassoc k _ _)
  | .tuple xs, b, c, ha, hb, hc => by
      refine assocAt_of_heads hidem ha hb hc fun _ hab hbc => ?_
      cases b <;> try cases hab
      cases c <;> try cases hbc
      rename_i ys zs
      have hxy : xs.length = ys.length := Head.tuple.inj hab
      have hyz : ys.length = zs.length := Head.tuple.inj hbc
      have hrest := joinLists?_assoc hassoc hidem xs ys zs hxy hyz (allParts_tuple.mp ha).2
        (allParts_tuple.mp hb).2 (allParts_tuple.mp hc).2
      refine hrest.map (join?_tuple hxy) (join?_tuple hyz) (fun us hus => ?_) fun us hus => ?_
      · exact join?_tuple ((length_of_joinLists? hxy hus).trans (hxy.trans hyz))
      · exact join?_tuple (hxy.trans (length_of_joinLists? hyz hus).symm)
  | .struct xs, b, c, ha, hb, hc => by
      refine assocAt_of_heads hidem ha hb hc fun _ hab hbc => ?_
      cases b <;> try cases hab
      cases c <;> try cases hbc
      rename_i ys zs
      have hxy : NameMap.keys xs = NameMap.keys ys := Head.struct.inj hab
      have hyz : NameMap.keys ys = NameMap.keys zs := Head.struct.inj hbc
      have hrest := joinFields?_assoc hassoc hidem xs ys zs hxy hyz (allParts_struct.mp ha).2
        (allParts_struct.mp hb).2 (allParts_struct.mp hc).2
      refine hrest.map (join?_struct hxy) (join?_struct hyz) (fun us hus => ?_) fun us hus => ?_
      · exact join?_struct ((keys_of_joinFields? hxy hus).trans (hxy.trans hyz))
      · exact join?_struct (hxy.trans (keys_of_joinFields? hyz hus).symm)
  | .closure _, b, c, ha, hb, hc => by
      refine assocAt_of_heads hidem ha hb hc fun _ hab hbc => ?_
      obtain ⟨ds, hds⟩ := exists_members hab.symm
      obtain ⟨es, hes⟩ := exists_members (hbc.symm.trans hab.symm)
      exact assocAt_members ha.self.ordered hb.self.ordered hc.self.ordered rfl hds hes
  | .closureSet _, b, c, ha, hb, hc => by
      refine assocAt_of_heads hidem ha hb hc fun _ hab hbc => ?_
      obtain ⟨ds, hds⟩ := exists_members hab.symm
      obtain ⟨es, hes⟩ := exists_members (hbc.symm.trans hab.symm)
      exact assocAt_members ha.self.ordered hb.self.ordered hc.self.ordered rfl hds hes
  | .slice x y z, b, c, ha, hb, hc => by
      refine assocAt_of_heads hidem ha hb hc fun _ hab hbc => ?_
      cases b <;> try cases hab
      cases c <;> try cases hbc
      rename_i x' y' z' x'' y'' z''
      obtain ⟨-, hax, hay, haz⟩ := allParts_slice.mp ha
      obtain ⟨-, hbx, hby, hbz⟩ := allParts_slice.mp hb
      obtain ⟨-, hcx, hcy, hcz⟩ := allParts_slice.mp hc
      have hx := join?_assoc hassoc hidem x x' x'' hax hbx hcx
      have hy := join?_assoc hassoc hidem y y' y'' hay hby hcy
      have hz := join?_assoc hassoc hidem z z' z'' haz hbz hcz
      have hyz : AssocAt (joinPair? join) (y, z) (y', z') (y'', z'') :=
        AssocAt.map₂ Prod.mk (fun _ _ _ _ => rfl) hy hz
      exact AssocAt.map₂ (fun start rest => slice start rest.1 rest.2)
        (fun u u' v v' => join?_slice u v.1 v.2 u' v'.1 v'.2) hx hyz
  | .none, b, c, ha, hb, hc => by
      refine assocAt_of_heads hidem ha hb hc fun _ hab hbc => ?_
      cases b <;> cases hab
      cases c <;> cases hbc
      rfl
  termination_by structural a => a

theorem joinLists?_assoc (hassoc : join.Associative) (hidem : join.Idempotent) :
    ∀ xs ys zs : List Ty, xs.length = ys.length → ys.length = zs.length →
    (∀ x ∈ xs, AllParts Regular x) → (∀ y ∈ ys, AllParts Regular y) →
    (∀ z ∈ zs, AllParts Regular z) → AssocAt (joinLists? join) xs ys zs
  | [], [], [], _, _, _, _, _ => rfl
  | x :: xs, y :: ys, z :: zs, hxy, hyz, hxs, hys, hzs => by
      obtain ⟨hx, hxs⟩ := List.forall_mem_cons.mp hxs
      obtain ⟨hy, hys⟩ := List.forall_mem_cons.mp hys
      obtain ⟨hz, hzs⟩ := List.forall_mem_cons.mp hzs
      have hfirst := join?_assoc hassoc hidem x y z hx hy hz
      have hrest := joinLists?_assoc hassoc hidem xs ys zs (Nat.succ.inj hxy) (Nat.succ.inj hyz)
        hxs hys hzs
      exact AssocAt.map₂ List.cons (fun u u' us us' => joinLists?_cons u u' us us') hfirst hrest
  termination_by structural xs => xs

theorem joinFields?_assoc (hassoc : join.Associative) (hidem : join.Idempotent) :
    ∀ xs ys zs : List (String × Ty), NameMap.keys xs = NameMap.keys ys →
    NameMap.keys ys = NameMap.keys zs → (∀ x ∈ xs, AllParts Regular x.2) →
    (∀ y ∈ ys, AllParts Regular y.2) → (∀ z ∈ zs, AllParts Regular z.2) →
    AssocAt (joinFields? join) xs ys zs
  | [], [], [], _, _, _, _, _ => rfl
  | (m, x) :: xs, (n, y) :: ys, (o, z) :: zs, hkeys, hkeys', hxs, hys, hzs => by
      obtain ⟨rfl, hxy⟩ : m = n ∧ NameMap.keys xs = NameMap.keys ys := List.cons.inj hkeys
      obtain ⟨rfl, hyz⟩ : m = o ∧ NameMap.keys ys = NameMap.keys zs := List.cons.inj hkeys'
      obtain ⟨hx, hxs⟩ := List.forall_mem_cons.mp hxs
      obtain ⟨hy, hys⟩ := List.forall_mem_cons.mp hys
      obtain ⟨hz, hzs⟩ := List.forall_mem_cons.mp hzs
      have hfirst := join?_assoc hassoc hidem x y z hx hy hz
      have hrest := joinFields?_assoc hassoc hidem xs ys zs hxy hyz hxs hys hzs
      exact AssocAt.map₂ (fun u us => (m, u) :: us)
        (fun u u' us us' => joinFields?_cons m m u u' us us') hfirst hrest
  termination_by structural xs => xs

end

end Associative

-- If a policy groups kinds in any way, and leaves a kind that meets itself, types can be
-- grouped in any way as well: either both ways fail, or both lead to one type.
theorem combineWith_assoc {join : Scalar.Policy} (hassoc : join.Associative)
    (hidem : join.Idempotent) {a b c : Ty} (ha : AllParts Regular a) (hb : AllParts Regular b)
    (hc : AllParts Regular c) :
    (∃ error error', (do (← a.combineWith join b).combineWith join c) = .error error ∧
        (do a.combineWith join (← b.combineWith join c)) = .error error') ∨
      ∃ ty, (do (← a.combineWith join b).combineWith join c) = .ok ty ∧
        (do a.combineWith join (← b.combineWith join c)) = .ok ty := by
  have h := join?_assoc hassoc hidem a b c ha hb hc
  have hoption : (do (← a.combineWith join b).combineWith join c).toOption =
      (do a.combineWith join (← b.combineWith join c)).toOption := by
    unfold AssocAt join? at h
    cases hab : a.combineWith join b <;> cases hbc : b.combineWith join c <;>
      rw [hab, hbc] at h <;> exact h
  generalize (do (← a.combineWith join b).combineWith join c) = lhs at hoption ⊢
  generalize (do a.combineWith join (← b.combineWith join c)) = rhs at hoption ⊢
  cases lhs <;> cases rhs <;> cases hoption
  · exact Or.inl ⟨_, _, rfl, rfl⟩
  · exact Or.inr ⟨_, rfl, rfl⟩

-- The kind that is listed later wins. Closures gather in a set in their order, however they
-- are grouped, and an element that is unknown to one or two of the types leaves the others.
theorem combineWith_assoc_later :
    let later : Scalar.Policy := fun k l => if k.index ≤ l.index then l else k
    let a : Ty := .tuple [.closure ⟨"h", []⟩, .array .f32 2, .unknown, .struct [("x", .unknown)]]
    let b : Ty := .tuple [.closure ⟨"f", [.none]⟩, .unknown, .i64, .struct [("x", .none)]]
    let c : Ty := .tuple
      [.closureSet [⟨"g", []⟩, ⟨"h", []⟩], .array .u8 2, .bool, .struct [("x", .unknown)]]
    let ty : Ty := .tuple [.closureSet [⟨"f", [.none]⟩, ⟨"g", []⟩, ⟨"h", []⟩], .array .f32 2, .i64,
      .struct [("x", .none)]]
    later.Associative ∧ later.Idempotent ∧
      (do (← a.combineWith later b).combineWith later c) = .ok ty ∧
      (do a.combineWith later (← b.combineWith later c)) = .ok ty := by
  intro later a b c ty
  have hassoc : later.Associative := by
    intro k l m
    simp only [later]
    split_ifs <;> first | rfl | omega
  have hidem : later.Idempotent := fun k => if_pos (Nat.le_refl _)
  have hleft : (do (← a.combineWith later b).combineWith later c) = .ok ty := by decide +kernel
  obtain ⟨_, _, hfails, -⟩ | ⟨ty', hty, hright⟩ := combineWith_assoc hassoc hidem (a := a) (b := b)
    (c := c) (by decide) (by decide) (by decide)
  · rw [hleft] at hfails
    cases hfails
  · rw [hleft] at hty
    cases hty
    exact ⟨hassoc, hidem, hleft, hright⟩

end Ty

end RankPoly
