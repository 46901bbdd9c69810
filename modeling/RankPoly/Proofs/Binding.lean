import RankPoly.Proofs.Params

namespace RankPoly

namespace Params

-- The arguments that a list of parameters takes. Each position without an argument
-- has a default, and what is left over has somewhere to go.
structure Accepts (params : Params) (args : List Ty) : Prop where
  defaults : ∀ name ∈ params.positional.drop args.length, params.defaults.contains name = true
  surplus : params.varargs = none → args.length ≤ params.positional.length

-- The types of the defaults of some positions, as far as there are defaults.
def defaultTys (defaults : NameMap Const) (names : List String) : List Ty :=
  names.filterMap fun name => (defaults.find? name).map Const.ty

-- The types that stand in for missing arguments.
def missingTys (params : Params) (args : List Ty) : List Ty :=
  defaultTys params.defaults (params.positional.drop args.length)

section Positional

variable {defaults : NameMap Const} {name : String} {names : List String} {tys : List Ty}

theorem contains_of_find? {value : Const} (h : defaults.find? name = some value) :
    defaults.contains name = true :=
  NameMap.contains_iff.mpr ⟨value, h⟩

theorem length_defaultTys (h : ∀ name ∈ names, defaults.contains name = true) :
    (defaultTys defaults names).length = names.length := by
  induction names with
  | nil => rfl
  | cons name names ih =>
      obtain ⟨hname, hnames⟩ := List.forall_mem_cons.mp h
      obtain ⟨value, hvalue⟩ := NameMap.contains_iff.mp hname
      have hcons : defaultTys defaults (name :: names) = value.ty :: defaultTys defaults names := by
        simp [defaultTys, hvalue]
      rw [hcons, List.length_cons, ih hnames, List.length_cons]

-- The positions take the arguments and then their defaults, if none is missing.
theorem bindPositional_ok : ∀ (names : List String) (tys : List Ty),
    (∀ name ∈ names.drop tys.length, defaults.contains name = true) →
      bindPositional defaults names tys =
        .ok (names.zip (tys ++ defaultTys defaults (names.drop tys.length)),
          tys.drop names.length)
  | [], tys, _ => by simp [bindPositional]
  | name :: names, ty :: tys, h => by
      have hrest := bindPositional_ok names tys (by simpa using h)
      unfold bindPositional
      rw [hrest]
      rfl
  | name :: names, [], h => by
      obtain ⟨hname, hnames⟩ := List.forall_mem_cons.mp h
      obtain ⟨value, hvalue⟩ := NameMap.contains_iff.mp hname
      have hrest := bindPositional_ok names [] (by simpa using hnames)
      unfold bindPositional
      simp only [hvalue, hrest]
      simp [defaultTys, hvalue]
      rfl

-- Without all of those defaults, a position that is missing is reported.
theorem bindPositional_missing : ∀ (names : List String) (tys : List Ty),
    (∃ name ∈ names.drop tys.length, defaults.contains name = false) →
      ∃ name ∈ names.drop tys.length, defaults.contains name = false ∧
        bindPositional defaults names tys = .error (.missing name)
  | [], tys, h => by simp at h
  | name :: names, ty :: tys, h => by
      obtain ⟨missing, hmem, hnone, hrest⟩ :=
        bindPositional_missing names tys (by simpa using h)
      refine ⟨missing, by simpa using hmem, hnone, ?_⟩
      unfold bindPositional
      rw [hrest]
      rfl
  | name :: names, [], h => by
      unfold bindPositional
      cases hvalue : defaults.find? name with
      | none => exact ⟨name, List.mem_cons_self, by simp [NameMap.contains, hvalue], rfl⟩
      | some value =>
          obtain ⟨missing, hmem, hnone⟩ := h
          have hne : missing ≠ name := by
            rintro rfl
            rw [contains_of_find? hvalue] at hnone
            cases hnone
          obtain ⟨missing, hmem, hnone, hrest⟩ :=
            bindPositional_missing names []
              ⟨missing, (List.mem_cons.mp hmem).resolve_left hne, hnone⟩
          refine ⟨missing, List.mem_cons_of_mem _ hmem, hnone, ?_⟩
          dsimp only
          rw [hrest]
          rfl

end Positional

-- What arguments are bound to, if they are taken.
def bound (params : Params) (args : List Ty) : Binding where
  params := params.positional.zip (args ++ params.missingTys args) ++
    params.varargs.toList.map fun name => (name, .tuple (args.drop params.positional.length))
  inputs := args ++ params.missingTys args

variable {params : Params} {args : List Ty} {binding : Binding}

theorem Accepts.length_missingTys (h : params.Accepts args) :
    (params.missingTys args).length = params.positional.length - args.length := by
  rw [missingTys, length_defaultTys h.defaults, List.length_drop]

theorem snd_zip {α β : Type} (xs : List α) (ys : List β) :
    (xs.zip ys).map Prod.snd = ys.take xs.length := by
  induction xs generalizing ys with
  | nil => rfl
  | cons x xs ih =>
      cases ys with
      | nil => rfl
      | cons y ys => exact congrArg (y :: ·) (ih ys)

-- The positions and what is left over take all arguments, and nothing else but defaults.
theorem Accepts.inputs_eq (h : params.Accepts args) :
    (params.positional.zip (args ++ params.missingTys args)).map Prod.snd ++
      args.drop params.positional.length = args ++ params.missingTys args := by
  have hlength := h.length_missingTys
  rw [snd_zip]
  by_cases hle : args.length ≤ params.positional.length
  · rw [List.drop_eq_nil_of_le hle, List.append_nil]
    refine List.take_of_length_le ?_
    rw [List.length_append]
    omega
  · have hnone : params.missingTys args = [] := List.length_eq_zero_iff.mp (by omega)
    rw [hnone, List.append_nil, List.take_append_drop]

theorem Accepts.bind_eq (h : params.Accepts args) : params.bind args = .ok (params.bound args) := by
  have hinputs := h.inputs_eq
  have hpositional : bindPositional params.defaults params.positional args =
      .ok (params.positional.zip (args ++ params.missingTys args),
        args.drop params.positional.length) := bindPositional_ok _ _ h.defaults
  rw [Params.bind_eq, hpositional]
  unfold bound
  cases hvarargs : params.varargs with
  | some name => simp [hinputs]
  | none =>
      rw [List.drop_eq_nil_of_le (h.surplus hvarargs)] at hinputs ⊢
      simpa using hinputs

theorem accepts_of_bind (h : params.bind args = .ok binding) : params.Accepts args := by
  rw [Params.bind_eq] at h
  have hdefaults : ∀ name ∈ params.positional.drop args.length,
      params.defaults.contains name = true := by
    by_contra hnot
    push Not at hnot
    obtain ⟨name, hmem, hnone⟩ := hnot
    obtain ⟨missing, -, -, hmissing⟩ :=
      bindPositional_missing _ _ ⟨name, hmem, Bool.eq_false_iff.mpr hnone⟩
    rw [hmissing] at h
    cases h
  refine ⟨hdefaults, fun hvarargs => ?_⟩
  rw [bindPositional_ok _ _ hdefaults, hvarargs] at h
  by_contra hlt
  have hsurplus : args.drop params.positional.length ≠ [] := by
    simpa using hlt
  dsimp only at h
  rw [if_neg (by simpa using hsurplus)] at h
  cases h

theorem bind_eq_ok_iff :
    params.bind args = .ok binding ↔ params.Accepts args ∧ binding = params.bound args := by
  constructor
  · intro h
    have haccepts := accepts_of_bind h
    rw [haccepts.bind_eq] at h
    cases h
    exact ⟨haccepts, rfl⟩
  · rintro ⟨haccepts, rfl⟩
    exact haccepts.bind_eq

theorem Accepts.length_inputs (h : params.Accepts args) :
    (args ++ params.missingTys args).length = max args.length params.positional.length := by
  rw [List.length_append, h.length_missingTys]
  omega

theorem Accepts.drop_inputs (h : params.Accepts args) :
    (args ++ params.missingTys args).drop params.positional.length =
      args.drop params.positional.length := by
  have hmissing : (params.missingTys args).length ≤ params.positional.length - args.length :=
    h.length_missingTys.le
  rw [List.drop_append, List.drop_eq_nil_of_le hmissing, List.append_nil]

-- The types that were passed and those of the defaults are bound as the arguments were.
theorem bind_again (hbind : params.bind args = .ok binding) :
    params.bind binding.inputs = .ok binding := by
  obtain ⟨h, rfl⟩ := bind_eq_ok_iff.mp hbind
  change params.bind (args ++ params.missingTys args) = _
  have hlength := h.length_inputs
  have hnone : params.positional.drop (args ++ params.missingTys args).length = [] :=
    List.drop_eq_nil_of_le (by omega)
  have hmissing : params.missingTys (args ++ params.missingTys args) = [] := by
    rw [missingTys, hnone]
    rfl
  have haccepts : params.Accepts (args ++ params.missingTys args) := by
    refine ⟨hnone ▸ nofun, fun hvarargs => ?_⟩
    have hsurplus := h.surplus hvarargs
    omega
  rw [haccepts.bind_eq]
  unfold bound
  rw [hmissing, h.drop_inputs, List.append_nil]

end Params

-- Arguments are bound just if no position is missing that has no default, and nothing is left
-- over without a place for it. None of them is lost, and with the defaults written out they are
-- bound alike.
theorem bind_keeps_arguments (params : Params) (args : List Ty) :
    ((∃ binding, params.bind args = .ok binding) ↔ params.Accepts args) ∧
    ∀ binding, params.bind args = .ok binding →
      binding.inputs = args ++ params.missingTys args ∧
      binding.inputs.length = max args.length params.positional.length ∧
      binding.params = params.positional.zip binding.inputs ++
        params.varargs.toList.map (fun name =>
          (name, .tuple (args.drop params.positional.length))) ∧
      params.bind binding.inputs = .ok binding := by
  refine ⟨⟨fun ⟨_, h⟩ => Params.accepts_of_bind h, fun h => ⟨_, h.bind_eq⟩⟩, ?_⟩
  intro binding h
  obtain ⟨haccepts, rfl⟩ := Params.bind_eq_ok_iff.mp h
  exact ⟨rfl, haccepts.length_inputs, rfl, Params.bind_again h⟩

-- A default stands in for the second argument, and nothing is left over.
theorem bind_default_kept :
    let params : Params :=
      { positional := ["a", "b"], defaults := [("b", .int 1)], varargs := some "rest" }
    ∃ binding, params.bind [.scalar .f32] = .ok binding ∧
      binding.inputs = [.scalar .f32, .i64] ∧
      binding.params = [("a", .scalar .f32), ("b", .i64), ("rest", .tuple [])] ∧
      params.bind [.scalar .f32, .i64] = .ok binding := by
  intro params
  obtain ⟨haccepts, hbound⟩ := bind_keeps_arguments params [.scalar .f32]
  obtain ⟨binding, h⟩ := haccepts.mpr ⟨by decide, nofun⟩
  obtain ⟨hinputs, -, hparams, hagain⟩ := hbound binding h
  have hinputs : binding.inputs = [.scalar .f32, .i64] := hinputs
  rw [hinputs] at hparams hagain
  exact ⟨binding, h, hinputs, hparams, hagain⟩

end RankPoly
