import RankPoly.Proofs.Elaboration.Stmt
import RankPoly.Proofs.Lockstep.Func

namespace RankPoly

-- How a specialization comes from a function, where `names` has the locals of
-- its variables. A body that never returns a value returns none at its end.
structure Func.Elaborates (rule : Expr → TypedExpr → Prop) (func : Func) (names : NameMap String)
    (spec : Specialization) : Prop where
  drawn : ∀ {name known}, names.find? name = some known →
    ∃ count, known = (Fresh.refresh ⟨count⟩ name).1
  injective : ∀ {name name' known}, names.find? name = some known →
    names.find? name' = some known → name = name'
  params : spec.params = Annotate.localParams { names } func.params
  body : ∃ body, List.Forall₂
      (Stmt.Elaborates rule fun name known => names.find? name = some known) func.body body ∧
    spec.body =
      if Stmt.blockReturns func.body then body else body ++ [.ret (.const .none .none)]

-- How a specialization is entered. All parameters have locals, and the arguments were bound to
-- them.
structure Func.Enters (func : Func) (names : NameMap String) (args : List Ty)
    (spec : Specialization) : Prop where
  locals : ∀ param ∈ func.params.names, ∃ known, names.find? param = some known
  bound : ∃ binding, func.params.bind args = .ok binding ∧ binding.inputs = spec.inputs

namespace Func.Elaborates

variable {rule rule' : Expr → TypedExpr → Prop} {func : Func} {names : NameMap String}
  {spec : Specialization}

theorem strengthen (h : func.Elaborates rule names spec)
    (hrule : ∀ ⦃e t⦄, e.Elaborates rule (fun name known => names.find? name = some known) t →
      rule' e t) : func.Elaborates rule' names spec where
  drawn := h.drawn
  injective := h.injective
  params := h.params
  body := by
    obtain ⟨body, hbody, heq⟩ := h.body
    refine ⟨body, hbody.imp fun _ _ hs => hs.imp le_rfl fun _ _ he => ?_, heq⟩
    exact he.strengthen hrule le_rfl _ _

theorem imp (h : func.Elaborates rule names spec) (hrule : ∀ ⦃e t⦄, rule e t → rule' e t) :
    func.Elaborates rule' names spec :=
  h.strengthen fun _ _ he => hrule he.root

end Func.Elaborates

namespace Func.Enters

variable {func : Func} {names : NameMap String} {args : List Ty} {spec : Specialization}
  {param param' : String}

theorem find?_localOf (h : func.Enters names args spec) (hparam : param ∈ func.params.names) :
    names.find? param = some (Annotate.localOf { names } param) := by
  obtain ⟨known, hknown⟩ := h.locals param hparam
  simp [Annotate.localOf, hknown]

-- Parameters share a local only if they share a name.
theorem localOf_injective {rule : Expr → TypedExpr → Prop} (h : func.Enters names args spec)
    (hbody : func.Elaborates rule names spec) (hparam : param ∈ func.params.names)
    (hparam' : param' ∈ func.params.names)
    (heq : Annotate.localOf { names } param = Annotate.localOf { names } param') :
    param = param' :=
  hbody.injective (heq ▸ h.find?_localOf hparam) (h.find?_localOf hparam')

end Func.Enters

namespace Annotate

variable {P : Store → Prop} {ctx : Context} {locals locals' : Locals} {store later : Store}

-- Parameters get their locals one by one. The locals before them may be lost,
-- as two parameters may have one name.
theorem bindParams_named (hctx : Answering P ctx) : ∀ (bound : List (String × Ty))
    {locals locals' : Locals} {store later : Store} {u : Unit}, P store → locals.Named store →
      Yields (bindParams bound) locals store u locals' later →
      store.Grows later ∧ P later ∧ locals'.Named later ∧ locals'.returnType = locals.returnType
  | [], locals, locals', store, later, u, hstore, hnamed, h => by
      unfold bindParams at h
      obtain ⟨-, rfl, rfl⟩ := yields_pure.mp h
      exact ⟨.refl store, hstore, hnamed, rfl⟩
  | (name, ty) :: rest, locals, locals', store, later, u, hstore, hnamed, h => by
      simp only [bindParams, yields_bind, yields_rename, yields_widen] at h
      obtain ⟨known, _, _, ⟨rfl, rfl, rfl⟩, widened, _, _, ⟨-, rfl, rfl⟩, hrest⟩ := h
      have hgrows : store.Grows { store with fresh := (store.fresh.refresh name).2 } :=
        ⟨id, id, by simp⟩
      obtain ⟨hgrows', hlater, hnamed', hreturn⟩ :=
        bindParams_named hctx rest (hctx.fresh name hstore) ((hnamed.rename name).setEnv _) hrest
      exact ⟨hgrows.trans hgrows', hlater, hnamed', hreturn⟩

-- Parameters that have locals keep them.
theorem localParams_eq_of_le (hle : locals.naming ≤ locals'.naming) {params : Params}
    (hbound : ∀ name ∈ params.names, ∃ known, locals.names.find? name = some known) :
    localParams locals params = localParams locals' params := by
  have hlocal : ∀ name ∈ params.names, localOf locals name = localOf locals' name := by
    intro name hname
    obtain ⟨known, hknown⟩ := hbound name hname
    have hknown' : locals'.names.find? name = some known := hle _ _ hknown
    unfold localOf
    rw [hknown, hknown']
  have hpositional : params.positional.map (localOf locals) =
      params.positional.map (localOf locals') :=
    List.map_congr_left fun name hname => hlocal name (List.mem_append_left _ hname)
  have hvarargs : params.varargs.map (localOf locals) = params.varargs.map (localOf locals') := by
    refine Option.map_congr fun name hname => hlocal name (List.mem_append_right _ ?_)
    simpa using hname
  rw [localParams_eq, localParams_eq, hpositional, hvarargs]

-- To type a function is to give locals to its parameters, to type its body, and
-- to draw a name.
theorem yields_func {source : Func} {args : List Ty} {spec : Specialization}
    (h : Yields (func ctx source args) {} store spec locals' later) :
    ∃ binding entered middle body between, source.params.bind args = .ok binding ∧
      Yields (bindParams binding.params) {} store () entered middle ∧
      Yields (block ctx source.body) entered middle body locals' between ∧
      later = { between with fresh := (between.fresh.refresh source.name).2 } ∧
      spec =
        { name := (between.fresh.refresh source.name).1
          source := source.name
          params := localParams entered source.params
          body := (withReturn body locals'.returnType).1
          inputs := binding.inputs
          returnType := (withReturn body locals'.returnType).2
          env := locals'.env } := by
  rw [func_eq] at h
  split at h
  · exact (yields_throw h).elim
  · rename_i binding hbinding
    simp only [enter, finish, yields_bind, yields_get, yields_lift, Session.yields_refresh,
      yields_pure] at h
    obtain ⟨_, _, _, ⟨_, entered, middle, hparams, _, _, _, ⟨rfl, rfl, rfl⟩, rfl, rfl, rfl⟩, body,
      _, between, hblock, _, _, _, ⟨rfl, rfl, rfl⟩, _, _, _, ⟨rfl, rfl, rfl⟩, rfl, rfl, rfl⟩ := h
    exact ⟨binding, entered, middle, body, between, hbinding, hparams, hblock, rfl, rfl⟩

-- A function that is typed elaborates, from its parameters on.
theorem func_enters (hctx : Answering P ctx) {source : Func} {args : List Ty}
    {spec : Specialization} (hstore : P store)
    (h : Yields (func ctx source args) {} store spec locals' later) :
    store.Grows later ∧ P later ∧ ∃ names, source.Elaborates (NodeTyped later) names spec ∧
      source.Enters names args spec := by
  obtain ⟨binding, entered, middle, body, between, hbinding, hparams, hblock, rfl, rfl⟩ :=
    yields_func h
  obtain ⟨hgrows, hmiddle, hnamed, hnone⟩ :=
    bindParams_named hctx binding.params hstore (Locals.Named.empty store) hparams
  obtain ⟨hproceeds, hbody⟩ := block_elaborates hctx source.body hmiddle hblock
  have hbound : ∀ name ∈ source.params.names,
      ∃ known, entered.names.find? name = some known := fun name hname =>
    bindParams_bound hparams (Or.inl (Params.bind_names hbinding ▸ hname))
  have hfresh : between.Grows { between with fresh := (between.fresh.refresh source.name).2 } :=
    ⟨id, id, by simp⟩
  have hlocals : ∀ param ∈ source.params.names,
      ∃ known, locals'.names.find? param = some known := by
    intro param hparam
    obtain ⟨known, hknown⟩ := hbound param hparam
    exact ⟨known, hproceeds.naming _ _ hknown⟩
  refine ⟨(hgrows.trans hproceeds.grows).trans hfresh, hctx.fresh _ hproceeds.kept,
    locals'.names, Func.Elaborates.imp ?_ (NodeTyped.mono hfresh), hlocals, binding, hbinding, rfl⟩
  refine ⟨?_, ?_, ?_, body, hbody, ?_⟩
  · intro name known hknown
    obtain ⟨count, -, heq⟩ := (hproceeds.named hnamed).drawn hknown
    exact ⟨count, heq⟩
  · exact (hproceeds.named hnamed).injective
  · exact localParams_eq_of_le hproceeds.naming hbound
  · have hreturns : locals'.returnType.isSome = Stmt.blockReturns source.body := by
      simpa [hnone] using hproceeds.returnType
    rw [← hreturns]
    cases locals'.returnType <;> rfl

theorem func_elaborates (hctx : Answering P ctx) {source : Func} {args : List Ty}
    {spec : Specialization} (hstore : P store)
    (h : Yields (func ctx source args) {} store spec locals' later) :
    store.Grows later ∧ P later ∧ ∃ names, source.Elaborates (NodeTyped later) names spec := by
  obtain ⟨hgrows, hlater, names, hbody, -⟩ := func_enters hctx hstore h
  exact ⟨hgrows, hlater, names, hbody⟩

theorem yields_of_annotate {source : Func} {args : List Ty} {spec : Specialization}
    (h : Session.outcome (source.annotate ctx args) store = (.ok spec, later)) :
    ∃ locals', Yields (func ctx source args) {} store spec locals' later := by
  rw [Comparison.outcome_annotate] at h
  rcases hfunc : (func ctx source args).outcome {} store with ⟨error | ⟨given, locals'⟩, last⟩ <;>
    rw [hfunc] at h <;> cases h
  exact ⟨locals', hfunc⟩

end Annotate

end RankPoly
