import RankPoly.Proofs.Flow.Func

namespace RankPoly

open Ty (AllParts)

-- The arguments flow into the locals that the parameters have in the end. A parameter whose
-- name comes again has lost its own to the later one.
def Func.Receives (func : Func) (args : List Ty) (spec : Specialization) : Prop :=
  ∃ binding, func.params.bind args = .ok binding ∧
    ∀ {i name ty}, binding.params[i]? = some (name, ty) →
      name ∉ (binding.params.drop (i + 1)).map Prod.fst →
      ∃ known, spec.params.names[i]? = some known ∧ spec.env.Bounds Ty.Below known ty

namespace Annotate

variable {p bound : Ty → Prop} {P : Store → Prop} {ctx : Context} {locals' : Locals}
  {store later : Store}

theorem names_localParams (locals : Locals) (params : Params) :
    (localParams locals params).names = params.names.map (localOf locals) := by
  rw [localParams_eq]
  unfold Params.names
  cases params.varargs <;> simp

-- What is bound later neither takes a type back nor touches the locals of other names.
theorem bindParams_receives (hctx : Flowing p bound P ctx) : ∀ (params : List (String × Ty))
    {locals locals' : Locals} {store later : Store} {u : Unit},
      (∀ param ∈ params, bound param.2) → Held p bound P locals store →
      Yields (bindParams params) locals store u locals' later →
      locals.env.Widens locals'.env ∧
      (∀ name ∉ params.map Prod.fst,
        locals'.names.find? name = locals.names.find? name) ∧
      ∀ {i name ty}, params[i]? = some (name, ty) → name ∉ (params.drop (i + 1)).map Prod.fst →
        ∃ known, locals'.names.find? name = some known ∧ locals'.env.Bounds Ty.Below known ty
  | [], locals, locals', store, later, u, _, _, h => by
      unfold bindParams at h
      obtain ⟨-, rfl, rfl⟩ := yields_pure.mp h
      exact ⟨.refl _, fun _ _ => rfl, by simp⟩
  | (param, first) :: rest, locals, locals', store, later, u, hparams, hheld, h => by
      obtain ⟨hfirst, htail⟩ := List.forall_mem_cons.mp hparams
      simp only [bindParams, yields_bind] at h
      obtain ⟨known, _, _, hrename, widened, _, _, hwiden, hrest⟩ := h
      obtain ⟨hmoves, hknown, hbelow, -⟩ :=
        widen_moves hctx.regime hfirst (hheld.rename hctx hrename) hwiden
      obtain ⟨-, rfl, rfl⟩ := yields_widen.mp hwiden
      obtain ⟨rfl, rfl, rfl⟩ := yields_rename.mp hrename
      obtain ⟨hwidens, hnames, hreceives⟩ := bindParams_receives hctx rest htail hmoves.held hrest
      refine ⟨hmoves.widens.env.trans hwidens, fun name hname => ?_, fun {i name ty} hi hlast => ?_⟩
      · rw [List.map_cons, List.mem_cons, not_or] at hname
        rw [hnames name hname.2]
        exact NameMap.find?_insert_of_ne _ _ (Ne.symm hname.1)
      · cases i with
        | zero =>
            cases hi
            refine ⟨_, ?_, hwidens.bounds ⟨widened, hknown, hbelow⟩⟩
            rw [hnames param hlast]
            exact NameMap.find?_insert_self _ _ _
        | succ i => exact hreceives hi hlast

-- What flows into a parameter stays below the type that it has in the end.
theorem func_receives (hctx : Flowing p bound P ctx) {source : Func} {args : List Ty}
    {spec : Specialization} (hstore : P store) (hargs : source.Admits bound args)
    (h : Yields (func ctx source args) {} store spec locals' later) :
    source.Receives args spec := by
  obtain ⟨binding, entered, middle, body, between, hbinding, hparams, hblock, rfl, rfl⟩ :=
    yields_func h
  have hempty : Held p bound P {} store := .start hstore
  have hadmits := hargs binding hbinding
  obtain ⟨hentered, -⟩ := bindParams_flows hctx binding.params hadmits hempty hparams
  obtain ⟨-, -, hreceives⟩ := bindParams_receives hctx binding.params hadmits hempty hparams
  obtain ⟨hmoves, -⟩ := block_flows hctx source.body hentered hblock
  refine ⟨binding, hbinding, fun {i name ty} hi hlast => ?_⟩
  obtain ⟨known, hknown, hbounds⟩ := hreceives hi hlast
  refine ⟨known, ?_, hmoves.widens.env.bounds hbounds⟩
  have hname : source.params.names[i]? = some name := by
    rw [← Params.bind_names hbinding, List.getElem?_map, hi]
    rfl
  rw [names_localParams, List.getElem?_map, hname]
  simp [localOf, hknown]

end Annotate

end RankPoly
