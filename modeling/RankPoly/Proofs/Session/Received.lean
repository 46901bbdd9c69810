import RankPoly.Proofs.Flow.Entry
import RankPoly.Proofs.Session.Flows

namespace RankPoly

open Session
open Ty (AllParts)

variable {p bound : Ty → Prop}

-- In all specializations that are kept, the arguments flow into the parameters, as long as these
-- get types of the wanted kind.
def Store.Received (p bound : Ty → Prop) (store : Store) : Prop :=
  ∀ request spec, (request, spec) ∈ store.built →
    ∃ func, store.funcs.find? request.func = some func ∧
      (func.Admits bound request.args → spec.Flows p bound ∧ func.Receives request.args spec)

theorem Store.Received.flows {store : Store} (h : store.Received p bound) :
    store.Flows p bound := by
  intro request spec hmem
  obtain ⟨func, hfunc, hreceives⟩ := h request spec hmem
  exact ⟨func, hfunc, fun hargs => (hreceives hargs).1⟩

theorem upheld_received (hp : Regime p bound) : Upheld (Store.Received p bound) where
  start := fun _ _ h => (List.not_mem_nil h).elim
  mono := by
    intro store later h hgrows hbuilt request spec hmem
    obtain ⟨func, hfunc, hreceives⟩ := h request spec (hbuilt ▸ hmem)
    exact ⟨func, hgrows.funcs hfunc, hreceives⟩
  keep := by
    intro defs ctx store later locals func request spec hctx hstore hyields hlater _ hfunc
    have hflowing := Annotate.Flowing.of_answering hp hctx fun h => h.2.flows.answers hp
    intro request' spec' hmem
    rcases List.mem_cons.mp hmem with heq | hmem
    · cases heq
      refine ⟨func, hfunc, fun hargs => ⟨?_, ?_⟩⟩
      · exact (Annotate.func_flows hflowing hstore hargs hyields).2
      · exact Annotate.func_receives hflowing hstore hargs hyields
    · exact hlater request' spec' hmem

theorem Reachable.received (hp : Regime p bound) {limits : Limits} {defs : List Func}
    {store later : Store} (hstore : Reachable (.ofLimits limits) defs store) {name : String}
    {args : List Ty} {spec : Specialization} {func : Func}
    (hfunc : store.funcs.find? name = some func) (hargs : func.Admits bound args)
    (h : outcome (specialize (.ofLimits limits) name args) store = (.ok spec, later)) :
    spec.Flows p bound ∧ func.Receives args spec := by
  obtain ⟨hlater, hgrows, hfound, -⟩ := (upheld_received hp).specialize hstore h
  obtain ⟨known, hknown, hreceives⟩ := hlater _ _ (mem_of_specialization? hfound)
  cases (hgrows.funcs hfunc).symm.trans hknown
  exact hreceives hargs

end RankPoly
