import RankPoly.Proofs.Session.Upheld

namespace RankPoly

open Session

-- All specializations that are kept were entered with the arguments that they are kept for, and
-- elaborate their functions under the same locals.
def Store.Entered (store : Store) : Prop :=
  ∀ request spec, (request, spec) ∈ store.built →
    ∃ func names, store.funcs.find? request.func = some func ∧
      func.Elaborates (fun _ _ => True) names spec ∧ func.Enters names request.args spec

theorem upheld_entered : Upheld Store.Entered where
  start := fun _ _ h => (List.not_mem_nil h).elim
  mono := by
    intro store later h hgrows hbuilt request spec hmem
    obtain ⟨func, names, hfunc, hentered⟩ := h request spec (hbuilt ▸ hmem)
    exact ⟨func, names, hgrows.funcs hfunc, hentered⟩
  keep := by
    intro defs ctx store later locals func request spec hctx hstore hyields hlater _ hfunc
    obtain ⟨-, -, names, hbody, henters⟩ := Annotate.func_enters hctx hstore hyields
    intro request' spec' hmem
    rcases List.mem_cons.mp hmem with heq | hmem
    · cases heq
      exact ⟨func, names, hfunc, hbody.imp fun _ _ _ => trivial, henters⟩
    · exact hlater request' spec' hmem

-- What a session gives for a function was entered with the arguments.
theorem Reachable.entered {limits : Limits} {defs : List Func} {store later : Store}
    (hstore : Reachable (.ofLimits limits) defs store) {name : String} {args : List Ty}
    {spec : Specialization}
    (h : outcome (specialize (.ofLimits limits) name args) store = (.ok spec, later)) :
    ∃ func names, store.funcs.find? name = some func ∧
      func.Elaborates (fun _ _ => True) names spec ∧ func.Enters names args spec := by
  obtain ⟨hlater, hgrows, hfound, known, hknown⟩ := upheld_entered.specialize hstore h
  obtain ⟨func, names, hfunc, hentered⟩ := hlater _ _ (mem_of_specialization? hfound)
  cases (hgrows.funcs hknown).symm.trans hfunc
  exact ⟨known, names, hknown, hentered⟩

end RankPoly
