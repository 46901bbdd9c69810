import RankPoly.Annotate.Func
import RankPoly.Proofs.Lockstep.Basic

namespace RankPoly

namespace NameMap.Alike

variable {α : Type} {naming later : Naming} {rel : α → α → Prop} {x y : NameMap α}

-- No name that is bound gets a second counterpart, so nothing is lost when
-- more names correspond.
theorem mono (h : x.Alike naming rel y) (hle : naming ≤ later) (hlater : Relator.BiUnique later) :
    x.Alike later rel y where
  lookup := by
    intro m n hmn
    cases hm : x.find? m with
    | some a =>
        obtain ⟨n', hn'⟩ := h.left (mem_keys_iff.mpr ⟨a, hm⟩)
        cases hlater.2 hmn (hle _ _ hn')
        exact hm ▸ h.lookup hn'
    | none =>
        cases hn : y.find? n with
        | none => exact .none
        | some b =>
            obtain ⟨m', hm'⟩ := h.right (mem_keys_iff.mpr ⟨b, hn⟩)
            cases hlater.1 hmn (hle _ _ hm')
            exact hm ▸ hn ▸ h.lookup hm'
  left hm := by
    obtain ⟨n, hn⟩ := h.left hm
    exact ⟨n, hle _ _ hn⟩
  right hn := by
    obtain ⟨m, hm⟩ := h.right hn
    exact ⟨m, hle _ _ hm⟩

theorem insert (h : x.Alike naming rel y) (hnaming : Relator.BiUnique naming) {m n : String}
    (hmn : naming m n) {a b : α} (hab : rel a b) :
    (NameMap.insert m a x).Alike naming rel (NameMap.insert n b y) where
  lookup := by
    intro k l hkl
    have heq : m = k ↔ n = l := Relator.rel_eq hnaming hmn hkl
    simp only [find?_insert, heq]
    split
    · exact .some hab
    · exact h.lookup hkl
  left hk := by
    rcases mem_keys_insert.mp hk with rfl | hk
    · exact ⟨n, hmn⟩
    · exact h.left hk
  right hl := by
    rcases mem_keys_insert.mp hl with rfl | hl
    · exact ⟨m, hmn⟩
    · exact h.right hl

theorem ofList (hnaming : Relator.BiUnique naming) {xs ys : List (String × α)}
    (h : List.Forall₂ (fun e e' => naming e.1 e'.1 ∧ rel e.2 e'.2) xs ys) :
    (NameMap.ofList xs).Alike naming rel (NameMap.ofList ys) := by
  have hfold : ∀ {x y : NameMap α}, x.Alike naming rel y →
      NameMap.Alike naming rel (xs.foldl (fun map entry => map.insert entry.1 entry.2) x)
        (ys.foldl (fun map entry => map.insert entry.1 entry.2) y) := by
    induction h with
    | nil => exact fun h => h
    | cons he _ ih => exact fun h => ih (h.insert hnaming he.1 he.2)
  refine hfold ⟨fun _ => .none, ?_, ?_⟩ <;> rintro _ ⟨⟩

theorem refl (hrel : ∀ a, rel a a) (x : NameMap α) : x.Alike Eq rel x where
  lookup := by
    rintro m _ rfl
    cases x.find? m with
    | none => exact .none
    | some a => exact .some (hrel a)
  left _ := ⟨_, rfl⟩
  right _ := ⟨_, rfl⟩

end NameMap.Alike

namespace Params

-- All parameters are bound, varargs last.
theorem bindPositional_names {defaults : NameMap Const} :
    ∀ {names : List String} {tys : List Ty} {bound : List (String × Ty)} {surplus : List Ty},
      bindPositional defaults names tys = .ok (bound, surplus) → bound.map Prod.fst = names
  | [], tys, bound, surplus, h => by
      cases h
      rfl
  | name :: names, ty :: tys, bound, surplus, h => by
      unfold bindPositional at h
      cases hrest : bindPositional defaults names tys with
      | error error =>
          rw [hrest] at h
          cases h
      | ok result =>
          rw [hrest] at h
          cases h
          exact congrArg (name :: ·) (bindPositional_names hrest)
  | name :: names, [], bound, surplus, h => by
      unfold bindPositional at h
      split at h
      · cases h
      · cases hrest : bindPositional defaults names [] with
        | error error =>
            rw [hrest] at h
            cases h
        | ok result =>
            rw [hrest] at h
            cases h
            exact congrArg (name :: ·) (bindPositional_names hrest)

theorem bind_eq (params : Params) (args : List Ty) :
    params.bind args =
      match bindPositional params.defaults params.positional args with
      | .error error => .error error
      | .ok (bound, surplus) =>
        match params.varargs with
        | some name =>
          .ok
            { params := bound ++ [(name, .tuple surplus)]
              inputs := bound.map Prod.snd ++ surplus }
        | none =>
          if surplus.isEmpty then .ok { params := bound, inputs := bound.map Prod.snd }
          else .error (.tooMany params.positional.length args.length) := by
  unfold bind
  cases bindPositional params.defaults params.positional args <;> rfl

theorem bind_names {params : Params} {args : List Ty} {binding : Binding}
    (h : params.bind args = .ok binding) : binding.params.map Prod.fst = params.names := by
  rw [bind_eq] at h
  cases hbound : bindPositional params.defaults params.positional args with
  | error error =>
      rw [hbound] at h
      cases h
  | ok result =>
      have hnames := bindPositional_names hbound
      rw [hbound] at h
      unfold names
      cases hvarargs : params.varargs with
      | some name =>
          simp only [hvarargs] at h
          cases h
          simp [hnames]
      | none =>
          simp only [hvarargs] at h
          split at h
          · cases h
            simp [hnames]
          · cases h

section Alike

variable {c : Correspondence}

-- A parameter and its type, under corresponding names.
abbrev BoundAlike (c : Correspondence) (lhs rhs : String × Ty) : Prop :=
  c.naming lhs.1 rhs.1 ∧ lhs.2 = rhs.2

theorem BoundAlike.tys_eq {xs ys : List (String × Ty)} (h : List.Forall₂ (BoundAlike c) xs ys) :
    xs.map Prod.snd = ys.map Prod.snd := by
  induction h with
  | nil => rfl
  | cons hentry _ ih => exact congrArg₂ List.cons hentry.2 ih

theorem bindPositional_alike {x y : NameMap Const} (hdefaults : x.Alike c.naming c.literal y) :
    ∀ {names names' : List String}, List.Forall₂ c.naming names names' → ∀ tys : List Ty,
      (∃ bound bound' surplus, bindPositional x names tys = .ok (bound, surplus) ∧
        bindPositional y names' tys = .ok (bound', surplus) ∧
        List.Forall₂ (BoundAlike c) bound bound') ∨
      ∃ name, bindPositional x names tys = .error (.missing name) ∧
        bindPositional y names' tys = .error (.missing (c.var name))
  | _, _, .nil, tys => Or.inl ⟨[], [], tys, rfl, rfl, .nil⟩
  | name :: names, name' :: names', .cons hname h, ty :: tys => by
      unfold bindPositional
      rcases bindPositional_alike hdefaults h tys with
        ⟨bound, bound', surplus, hx, hy, hbound⟩ | ⟨missing, hx, hy⟩
      · rw [hx, hy]
        exact Or.inl ⟨_, _, surplus, rfl, rfl, .cons ⟨hname, rfl⟩ hbound⟩
      · rw [hx, hy]
        exact Or.inr ⟨missing, rfl, rfl⟩
  | name :: names, name' :: names', .cons hname h, [] => by
      unfold bindPositional
      have hlookup := hdefaults.lookup hname
      generalize x.find? name = value at hlookup
      generalize y.find? name' = value' at hlookup
      cases hlookup with
      | none => exact Or.inr ⟨name, rfl, by rw [← hname]⟩
      | some hvalue =>
          simp only [c.ty_eq hvalue]
          rcases bindPositional_alike hdefaults h [] with
            ⟨bound, bound', surplus, hx, hy, hbound⟩ | ⟨missing, hx, hy⟩
          · rw [hx, hy]
            exact Or.inl ⟨_, _, surplus, rfl, rfl, .cons ⟨hname, rfl⟩ hbound⟩
          · rw [hx, hy]
            exact Or.inr ⟨missing, rfl, rfl⟩

-- Corresponding parameters take the same arguments, and refuse the others for
-- corresponding reasons.
theorem Alike.bind {x y : Params} (h : x.Alike c.naming c.literal y) (args : List Ty) :
    (∃ binding binding', x.bind args = .ok binding ∧ y.bind args = .ok binding' ∧
      List.Forall₂ (BoundAlike c) binding.params binding'.params ∧
      binding.inputs = binding'.inputs) ∨
    ∃ error error', x.bind args = .error error ∧ y.bind args = .error error' ∧
      SpecializeError.Alike c (.shape (.binding error)) (.shape (.binding error')) := by
  rw [bind_eq, bind_eq]
  rcases bindPositional_alike h.defaults h.positional args with
    ⟨bound, bound', surplus, hx, hy, hbound⟩ | ⟨missing, hx, hy⟩
  · have htys := BoundAlike.tys_eq hbound
    have hvarargs := h.varargs
    rw [hx, hy]
    generalize x.varargs = rest at hvarargs
    generalize y.varargs = rest' at hvarargs
    cases hvarargs with
    | some hname =>
        refine Or.inl ⟨_, _, rfl, rfl, ?_, ?_⟩
        · exact List.rel_append hbound (.cons ⟨hname, rfl⟩ .nil)
        · simp [htys]
    | none =>
        cases surplus with
        | nil => exact Or.inl ⟨_, _, rfl, rfl, hbound, htys⟩
        | cons ty tys =>
            refine Or.inr ⟨_, _, rfl, rfl, ?_⟩
            rw [h.positional.length_eq]
            exact .refl _
  · rw [hx, hy]
    exact Or.inr ⟨_, _, rfl, rfl, .missing missing⟩

section Renamed

variable {later : Naming} {f g : String → String}

theorem renamed_alike {names names' : List String} (h : List.Forall₂ c.naming names names')
    (hlocal : ∀ name ∈ names, ∀ name', c.naming name name' → later (f name) (g name')) :
    List.Forall₂ later (names.map f) (names'.map g) := by
  induction h with
  | nil => exact .nil
  | cons hname _ ih =>
      refine .cons (hlocal _ List.mem_cons_self _ hname) (ih ?_)
      exact fun name hmem => hlocal name (List.mem_cons_of_mem _ hmem)

theorem renamedDefaults_alike {x y : NameMap Const} (hdefaults : x.Alike c.naming c.literal y)
    {names names' : List String} (h : List.Forall₂ c.naming names names')
    (hlocal : ∀ name ∈ names, ∀ name', c.naming name name' → later (f name) (g name')) :
    List.Forall₂ (fun e e' => later e.1 e'.1 ∧ c.literal e.2 e'.2)
      ((names.zip (names.map f)).filterMap fun (old, new) =>
        (x.find? old).map fun value => (new, value))
      ((names'.zip (names'.map g)).filterMap fun (old, new) =>
        (y.find? old).map fun value => (new, value)) := by
  induction h with
  | nil => exact .nil
  | @cons name name' _ _ hname _ ih =>
      have hrest := ih fun name hmem => hlocal name (List.mem_cons_of_mem _ hmem)
      have hhead := hlocal name List.mem_cons_self name' hname
      have hlookup := hdefaults.lookup hname
      simp only [List.map_cons, List.zip_cons_cons, List.filterMap_cons]
      generalize x.find? name = value at hlookup ⊢
      generalize y.find? name' = value' at hlookup ⊢
      cases hlookup with
      | none => exact hrest
      | some hvalue => exact .cons ⟨hhead, hvalue⟩ hrest

end Renamed

end Alike

end Params

end RankPoly
