import RankPoly.Proofs.Session.Upheld

namespace RankPoly

open Session

-- All specializations that are kept elaborate their functions, node by node.
def Store.Elaborated (store : Store) : Prop :=
  ∀ request spec, (request, spec) ∈ store.built →
    ∃ func names, store.funcs.find? request.func = some func ∧
      func.Elaborates (NodeTyped store) names spec

theorem Store.Elaborated.mono {store later : Store} (h : store.Elaborated)
    (hgrows : store.Grows later) (hbuilt : later.built = store.built) : later.Elaborated := by
  intro request spec hmem
  obtain ⟨func, names, hfunc, hbody⟩ := h request spec (hbuilt ▸ hmem)
  exact ⟨func, names, hgrows.funcs hfunc, hbody.imp (NodeTyped.mono hgrows)⟩

theorem Store.Elaborated.keep {store : Store} (h : store.Elaborated) {request : Request}
    {spec : Specialization} (hnew : store.specialization? request = none) {func : Func}
    (hfunc : store.funcs.find? request.func = some func) {names : NameMap String}
    (hbody : func.Elaborates (NodeTyped store) names spec) :
    Elaborated { store with built := (request, spec) :: store.built } := by
  intro request' spec' hmem
  have hgrows : store.Grows { store with built := (request, spec) :: store.built } := .keep hnew
  rcases List.mem_cons.mp hmem with heq | hmem
  · cases heq
    exact ⟨func, names, hfunc, hbody.imp (NodeTyped.mono hgrows)⟩
  · obtain ⟨func', names', hfunc', hbody'⟩ := h request' spec' hmem
    exact ⟨func', names', hfunc', hbody'.imp (NodeTyped.mono hgrows)⟩

theorem upheld_elaborated : Upheld Store.Elaborated where
  start := fun _ _ h => (List.not_mem_nil h).elim
  mono := .mono
  keep := by
    intro defs ctx store later locals func request spec hctx hstore hyields hlater hnew hfunc
    obtain ⟨-, -, names, hbody⟩ := Annotate.func_elaborates hctx hstore hyields
    exact hlater.keep hnew hfunc hbody

-- What a session gives for a function elaborates the function.
theorem Reachable.elaborated {limits : Limits} {defs : List Func} {store later : Store}
    (hstore : Reachable (.ofLimits limits) defs store) {name : String} {args : List Ty}
    {spec : Specialization}
    (h : outcome (specialize (.ofLimits limits) name args) store = (.ok spec, later)) :
    ∃ func names, store.funcs.find? name = some func ∧
      func.Elaborates (NodeTyped later) names spec := by
  obtain ⟨hlater, hgrows, hfound, known, hknown⟩ := upheld_elaborated.specialize hstore h
  obtain ⟨func, names, hfunc, hbody⟩ := hlater _ _ (mem_of_specialization? hfound)
  cases (hgrows.funcs hknown).symm.trans hfunc
  exact ⟨known, names, hknown, hbody⟩

end RankPoly
