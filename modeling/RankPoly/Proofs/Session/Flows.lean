import RankPoly.Proofs.Flow.Func
import RankPoly.Proofs.Session.Upheld

namespace RankPoly

open Session
open Ty (AllParts)

variable {p bound : Ty → Prop}

-- All specializations that are kept flow into what is known of their variables,
-- as long as their parameters have types of the wanted kind.
def Store.Flows (p bound : Ty → Prop) (store : Store) : Prop :=
  ∀ request spec, (request, spec) ∈ store.built →
    ∃ func, store.funcs.find? request.func = some func ∧
      (func.Admits bound request.args → spec.Flows p bound)

theorem Store.Flows.answers {store : Store} (h : store.Flows p bound) (hp : Regime p bound) :
    store.Answers p := by
  intro request ty hargs hresult
  obtain ⟨spec, hmem, rfl⟩ := mem_of_resultIn hresult
  obtain ⟨func, -, hflows⟩ := h request spec hmem
  exact (hflows (hp.admits hargs)).returnType

theorem upheld_flows (hp : Regime p bound) : Upheld (Store.Flows p bound) where
  start := fun _ _ h => (List.not_mem_nil h).elim
  mono := by
    intro store later h hgrows hbuilt request spec hmem
    obtain ⟨func, hfunc, hflows⟩ := h request spec (hbuilt ▸ hmem)
    exact ⟨func, hgrows.funcs hfunc, hflows⟩
  keep := by
    intro defs ctx store later locals func request spec hctx hstore hyields hlater _ hfunc
    have hflowing := Annotate.Flowing.of_answering hp hctx fun h => h.2.answers hp
    intro request' spec' hmem
    rcases List.mem_cons.mp hmem with heq | hmem
    · cases heq
      exact ⟨func, hfunc, fun hargs => (Annotate.func_flows hflowing hstore hargs hyields).2⟩
    · exact hlater request' spec' hmem

theorem Reachable.flows (hp : Regime p bound) {limits : Limits} {defs : List Func}
    {store later : Store} (hstore : Reachable (.ofLimits limits) defs store) {name : String}
    {args : List Ty} {spec : Specialization}
    (hargs : ∀ func, store.funcs.find? name = some func → func.Admits bound args)
    (h : outcome (specialize (.ofLimits limits) name args) store = (.ok spec, later)) :
    spec.Flows p bound := by
  obtain ⟨hlater, hgrows, hfound, known, hknown⟩ := (upheld_flows hp).specialize hstore h
  obtain ⟨func, hfunc, hflows⟩ := hlater _ _ (mem_of_specialization? hfound)
  cases (hgrows.funcs hknown).symm.trans hfunc
  exact hflows (hargs known hknown)

end RankPoly
