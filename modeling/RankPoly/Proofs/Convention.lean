import RankPoly.Demo
import RankPoly.Proofs.Binding
import RankPoly.Proofs.Session.Entered

namespace RankPoly

def BindError.rename (newName : String → String) : BindError → BindError
  | .missing name => .missing (newName name)
  | .tooMany expected given => .tooMany expected given

-- The same types, bound to other names.
def Binding.rename (newName : String → String) (binding : Binding) : Binding where
  params := binding.params.map (Prod.map newName id)
  inputs := binding.inputs

-- The same outcome under other names.
def renameBound (newName : String → String) : Except BindError Binding → Except BindError Binding
  | .ok binding => .ok (binding.rename newName)
  | .error error => .error (error.rename newName)

namespace Params

variable {newName : String → String} {defaults defaults' : NameMap Const} {names : List String}

theorem renameDefaults_map (defaults : NameMap Const) (names : List String) :
    renameDefaults defaults (names.zip (names.map newName)) =
      NameMap.ofList (names.filterMap fun name =>
        (defaults.find? name).map fun value => (newName name, value)) := by
  have hzip : names.zip (names.map newName) = names.map fun name => (name, newName name) := by
    have hmap := List.zip_map' (f := id) (g := newName) (l := names)
    rwa [List.map_id] at hmap
  rw [renameDefaults, hzip, List.filterMap_map]
  rfl

theorem mem_renameDefaults {name : String} {value : Const} :
    (name, value) ∈ names.filterMap (fun name =>
      (defaults.find? name).map fun value => (newName name, value)) ↔
      ∃ old ∈ names, defaults.find? old = some value ∧ newName old = name := by
  simp [List.mem_filterMap]

-- A default stays with its position, as long as no two positions get one name.
theorem find?_renameDefaults
    (hinj : ∀ name ∈ names, ∀ name' ∈ names, newName name = newName name' → name = name')
    {name : String} (hname : name ∈ names) :
    (renameDefaults defaults (names.zip (names.map newName))).find? (newName name) =
      defaults.find? name := by
  rw [renameDefaults_map]
  have hsame : ∀ {value}, (newName name, value) ∈ names.filterMap (fun name =>
      (defaults.find? name).map fun value => (newName name, value)) →
      defaults.find? name = some value := by
    intro value hmem
    obtain ⟨old, hold, hvalue, heq⟩ := mem_renameDefaults.mp hmem
    exact hinj old hold name hname heq ▸ hvalue
  cases hdefault : defaults.find? name with
  | some value =>
      refine NameMap.find?_ofList (mem_renameDefaults.mpr ⟨name, hname, hdefault, rfl⟩) ?_
      rintro ⟨key, other⟩ hmem rfl
      exact Option.some.inj ((hsame hmem).symm.trans hdefault)
  | none =>
      refine Option.eq_none_iff_forall_ne_some.mpr fun value hvalue => ?_
      cases hdefault.symm.trans (hsame (NameMap.mem_of_find?_ofList hvalue))

-- No name has a default but those of the positions that had one.
theorem exists_of_renameDefaults {key : String} {value : Const}
    (h : (renameDefaults defaults (names.zip (names.map newName))).find? key = some value) :
    ∃ name ∈ names, defaults.find? name = some value ∧ newName name = key := by
  rw [renameDefaults_map] at h
  exact mem_renameDefaults.mp (NameMap.mem_of_find?_ofList h)

theorem bindPositional_rename : ∀ (names : List String) (tys : List Ty),
    (∀ name ∈ names, defaults'.find? (newName name) = defaults.find? name) →
      bindPositional defaults' (names.map newName) tys =
        match bindPositional defaults names tys with
        | .ok (bound, surplus) => .ok (bound.map (Prod.map newName id), surplus)
        | .error error => .error (error.rename newName)
  | [], tys, _ => rfl
  | name :: names, ty :: tys, h => by
      have hrest := bindPositional_rename names tys (List.forall_mem_cons.mp h).2
      rw [List.map_cons]
      unfold bindPositional
      rw [hrest]
      rcases bindPositional defaults names tys with error | ⟨bound, surplus⟩ <;> rfl
  | name :: names, [], h => by
      obtain ⟨hname, hnames⟩ := List.forall_mem_cons.mp h
      have hrest := bindPositional_rename names [] hnames
      rw [List.map_cons]
      unfold bindPositional
      rw [hname, hrest]
      cases defaults.find? name with
      | none => rfl
      | some value => rcases bindPositional defaults names [] with error | ⟨bound, surplus⟩ <;> rfl

end Params

namespace Annotate

theorem localParams_default {locals : Locals} {params : Params}
    (hinj : ∀ name ∈ params.positional, ∀ name' ∈ params.positional,
      localOf locals name = localOf locals name' → name = name')
    {name : String} (hname : name ∈ params.positional) :
    (localParams locals params).defaults.find? (localOf locals name) =
      params.defaults.find? name := by
  rw [localParams_eq]
  exact Params.find?_renameDefaults hinj hname

-- Parameters bind arguments under their locals as they do under their own names, and refuse
-- them for the same reasons.
theorem localParams_bind {locals : Locals} {params : Params}
    (hinj : ∀ name ∈ params.positional, ∀ name' ∈ params.positional,
      localOf locals name = localOf locals name' → name = name') (args : List Ty) :
    (localParams locals params).bind args = renameBound (localOf locals) (params.bind args) := by
  have hpositional := Params.bindPositional_rename params.positional args
    fun name hname => localParams_default hinj hname
  rw [Params.bind_eq, Params.bind_eq, localParams_eq]
  rw [localParams_eq] at hpositional
  rw [hpositional]
  rcases Params.bindPositional params.defaults params.positional args with
    error | ⟨bound, surplus⟩
  · rfl
  · cases params.varargs with
    | some name => simp [renameBound, Binding.rename]
    | none => cases surplus <;> simp [renameBound, Binding.rename, BindError.rename]

end Annotate

-- A specialization takes the arguments that its function takes, binds them to the locals of the
-- same parameters, and refuses all others for the same reason. No default gets to another
-- parameter, and the types that it was made for are taken as they are.
theorem specialize_keeps_convention {limits : Limits} {defs : List Func} {store later : Store}
    (hstore : Reachable (.ofLimits limits) defs store) {name : String} {args : List Ty}
    {spec : Specialization}
    (h : Session.outcome (Session.specialize (.ofLimits limits) name args) store =
      (.ok spec, later)) :
    ∃ func names newName, store.funcs.find? name = some func ∧
      func.Elaborates (fun _ _ => True) names spec ∧
      (∀ param ∈ func.params.names, names.find? param = some (newName param)) ∧
      (∀ tys, spec.params.bind tys = renameBound newName (func.params.bind tys)) ∧
      (∀ param ∈ func.params.positional,
        spec.params.defaults.find? (newName param) = func.params.defaults.find? param) ∧
      (∀ known value, spec.params.defaults.find? known = some value →
        ∃ param ∈ func.params.positional, newName param = known) ∧
      ∃ binding, spec.params.bind spec.inputs = .ok binding ∧ binding.inputs = spec.inputs := by
  obtain ⟨func, names, hfunc, hbody, henters⟩ := hstore.entered h
  have hinj : ∀ param ∈ func.params.positional, ∀ param' ∈ func.params.positional,
      Annotate.localOf { names } param = Annotate.localOf { names } param' → param = param' :=
    fun _ hparam _ hparam' => henters.localOf_injective hbody (List.mem_append_left _ hparam)
      (List.mem_append_left _ hparam')
  have hbind : ∀ tys, spec.params.bind tys =
      renameBound (Annotate.localOf { names }) (func.params.bind tys) := fun tys =>
    hbody.params ▸ Annotate.localParams_bind hinj tys
  obtain ⟨binding, hbinding, hinputs⟩ := henters.bound
  refine ⟨func, names, _, hfunc, hbody, fun _ => henters.find?_localOf, hbind, fun param hparam => ?_,
    fun known value hvalue => ?_, binding.rename (Annotate.localOf { names }), ?_, hinputs⟩
  · rw [hbody.params]
    exact Annotate.localParams_default hinj hparam
  · rw [hbody.params, Annotate.localParams_eq] at hvalue
    obtain ⟨param, hparam, -, heq⟩ := Params.exists_of_renameDefaults hvalue
    exact ⟨param, hparam, heq⟩
  · rw [hbind, ← hinputs, Params.bind_again hbinding]
    rfl

-- What is left over has the name of a position, so both stand under one local.
theorem specialize_scale_convention :
    let scale : Func :=
      { name := "scale"
        params :=
          { positional := ["x", "by"], defaults := [("by", .int 2)], varargs := some "x" }
        body := [.ret (.var "by")] }
    let store := Operation.after (.ofLimits {}) {} (.register scale)
    ∃ spec later newName,
      Session.outcome (Session.specialize (.ofLimits {}) "scale" [.scalar .f32]) store =
        (.ok spec, later) ∧
      spec.params.names = ["x.2", "by.1", "x.2"] ∧ spec.inputs = [.scalar .f32, .i64] ∧
      (∀ tys, spec.params.bind tys = renameBound newName (scale.params.bind tys)) ∧
      ∃ binding, spec.params.bind spec.inputs = .ok binding ∧ binding.inputs = spec.inputs := by
  intro scale store
  have hstore : Reachable (.ofLimits {}) [scale] store := .step (.register scale) .start
  have hshape : (Session.outcome (Session.specialize (.ofLimits {}) "scale" [.scalar .f32])
      store).1.toOption.map (fun spec => (spec.params.names, spec.inputs)) =
        some (["x.2", "by.1", "x.2"], [.scalar .f32, .i64]) := by
    decide +kernel
  obtain ⟨spec, later, h⟩ := Outcome.exists_ok
    (o := Session.outcome (Session.specialize (.ofLimits {}) "scale" [.scalar .f32]) store)
    (by decide +kernel)
  rw [h] at hshape
  obtain ⟨hnames, hinputs⟩ := Prod.mk.inj (Option.some.inj hshape)
  obtain ⟨func, names, newName, hfunc, -, -, hbind, -, -, hagain⟩ :=
    specialize_keeps_convention hstore h
  have hscale : store.funcs.find? "scale" = some scale := rfl
  cases hscale.symm.trans hfunc
  exact ⟨spec, later, newName, h, hnames, hinputs, hbind, hagain⟩

end RankPoly
