import RankPoly.Demo
import RankPoly.Proofs.Flow.Calls
import RankPoly.Proofs.Session.Elaborated

namespace RankPoly

open Session

-- One specialization that is kept calls another one.
def Store.Calls (store : Store) (caller callee : Request) : Prop :=
  ∃ func spec, store.funcs.find? caller.func = some func ∧
    store.specialization? caller = some spec ∧ spec.Needs func callee

-- Specializations, newest first, each of which only needs older ones.
inductive Layered (funcs : NameMap Func) : List (Request × Specialization) → Prop where
  | nil : Layered funcs []
  | cons {request : Request} {spec : Specialization} {older : List (Request × Specialization)}
      {func : Func} : Layered funcs older → request ∉ older.map Prod.fst →
      funcs.find? request.func = some func →
      (∀ callee, spec.Needs func callee → callee ∈ older.map Prod.fst) →
      Layered funcs ((request, spec) :: older)

-- The turn at which a request was served, counted from one.
def turn (request : Request) : List (Request × Specialization) → Nat
  | [] => 0
  | entry :: older => if entry.1 = request then older.length + 1 else turn request older

theorem turn_le_length (request : Request) :
    ∀ built : List (Request × Specialization), turn request built ≤ built.length
  | [] => Nat.le_refl 0
  | entry :: older => by
      unfold turn
      split
      · exact Nat.le_refl _
      · exact Nat.le_succ_of_le (turn_le_length request older)

theorem Store.has_iff_mem {store : Store} {request : Request} :
    store.Has request ↔ request ∈ store.built.map Prod.fst := by
  constructor
  · rintro ⟨spec, hspec⟩
    exact List.mem_map.mpr ⟨_, mem_of_specialization? hspec, rfl⟩
  · intro hmem
    obtain ⟨entry, hentry, rfl⟩ := List.mem_map.mp hmem
    by_contra hnone
    have hfind := Option.map_eq_none_iff.mp (not_has_iff.mp hnone)
    simpa using List.find?_eq_none.mp hfind entry hentry

namespace Layered

variable {funcs : NameMap Func} {built : List (Request × Specialization)}

theorem mono (h : Layered funcs built) {funcs' : NameMap Func}
    (hfuncs : ∀ {name func}, funcs.find? name = some func → funcs'.find? name = some func) :
    Layered funcs' built := by
  induction h with
  | nil => exact .nil
  | cons _ hnew hfunc hneeds ih => exact .cons ih hnew (hfuncs hfunc) hneeds

-- What is needed is there, and was there first.
theorem turn_lt (h : Layered funcs built) {caller callee : Request} {func : Func}
    {spec : Specialization} (hfunc : funcs.find? caller.func = some func)
    (hspec : (built.find? fun entry => entry.1 = caller).map Prod.snd = some spec)
    (hneeds : spec.Needs func callee) :
    callee ∈ built.map Prod.fst ∧ turn callee built < turn caller built := by
  induction h with
  | nil => cases hspec
  | @cons request spec' older func' _ hnew hfunc' hneeds' ih =>
      have hlater : callee ∈ older.map Prod.fst →
          callee ∈ ((request, spec') :: older).map Prod.fst ∧
            turn callee ((request, spec') :: older) = turn callee older := by
        intro hcallee
        have hne : request ≠ callee := fun heq => hnew (heq ▸ hcallee)
        exact ⟨List.mem_cons_of_mem _ hcallee, if_neg hne⟩
      by_cases hcaller : request = caller
      · subst hcaller
        cases hfunc'.symm.trans hfunc
        rw [List.find?_cons_of_pos (by simp)] at hspec
        cases hspec
        obtain ⟨hmem, hturn⟩ := hlater (hneeds' callee hneeds)
        refine ⟨hmem, ?_⟩
        rw [hturn, turn, if_pos rfl]
        exact Nat.lt_succ_of_le (turn_le_length callee older)
      · rw [List.find?_cons_of_neg (by simpa using hcaller)] at hspec
        obtain ⟨hcallee, hlt⟩ := ih hspec
        obtain ⟨hmem, hturn⟩ := hlater hcallee
        refine ⟨hmem, ?_⟩
        rwa [hturn, turn, if_neg hcaller]

-- Calls, and the calls that they lead to, only go back to earlier turns.
theorem turn_lt_of_calls {store : Store} (h : Layered store.funcs store.built)
    {caller callee : Request} (hcalls : Relation.TransGen store.Calls caller callee) :
    turn callee store.built < turn caller store.built := by
  have hcall : ∀ {caller callee}, store.Calls caller callee →
      turn callee store.built < turn caller store.built := by
    rintro caller callee ⟨func, spec, hfunc, hspec, hneeds⟩
    exact (h.turn_lt hfunc hspec hneeds).2
  induction hcalls with
  | single hfirst => exact hcall hfirst
  | tail _ hlast ih => exact (hcall hlast).trans ih

end Layered

-- No specialization is kept before those that its nodes call.
theorem upheld_layered : Upheld fun store => Layered store.funcs store.built where
  start := .nil
  mono := by
    intro store later h hgrows hbuilt
    rw [hbuilt]
    exact h.mono hgrows.funcs
  keep := by
    intro defs ctx store later locals func request spec hctx hstore hyields hlater hnew hfunc
    obtain ⟨-, -, names, hbody⟩ := Annotate.func_elaborates hctx hstore hyields
    have hnew : request ∉ later.built.map Prod.fst :=
      Store.has_iff_mem.not.mp (Store.not_has_iff.mpr hnew)
    exact .cons hlater hnew hfunc fun callee hneeds => Store.has_iff_mem.mp (hbody.needs hneeds)

-- All that the specializations of a session call, node by node, has been
-- specialized as well, and none of them comes back to itself by calls.
theorem calls_closed_acyclic {limits : Limits} {defs : List Func} {store : Store}
    (hstore : Reachable (.ofLimits limits) defs store) :
    (∀ request spec, store.specialization? request = some spec →
      ∃ func names, store.funcs.find? request.func = some func ∧
        func.Elaborates (NeedsKept store) names spec) ∧
    ∀ request, ¬Relation.TransGen store.Calls request request := by
  refine ⟨fun request spec hspec => ?_, fun request hcycle => ?_⟩
  · obtain ⟨-, helaborated⟩ := upheld_elaborated.of_reachable hstore
    obtain ⟨func, names, hfunc, hbody⟩ := helaborated request spec (mem_of_specialization? hspec)
    exact ⟨func, names, hfunc, hbody.strengthen needsKept_of_elaborates⟩
  · obtain ⟨-, hlayered⟩ := upheld_layered.of_reachable hstore
    exact Nat.lt_irrefl _ (hlayered.turn_lt_of_calls hcycle)

-- The sum of each row calls the sum, and the sum of integers calls their
-- addition.
set_option maxRecDepth 2000 in
theorem calls_row_sums :
    let sum := Demo.define "sum" ["xs"]
      [.ret (.fold .reduce (Demo.named "add") [.var "xs"] none none none)]
    let rowSums := Demo.define "row_sums" ["m"]
      [.ret (.map (Demo.named "sum") [.var "m"] (some (.const (.int 0))))]
    let ops : List Operation := [.register (Demo.binary "add" .add), .register sum,
      .register rowSums, .specialize "row_sums" [.array .i64 2]]
    let store := ops.foldl (Operation.after (.ofLimits {})) {}
    store.Calls ⟨"row_sums", [.array .i64 2]⟩ ⟨"sum", [.array .i64 1]⟩ ∧
      store.Calls ⟨"sum", [.array .i64 1]⟩ ⟨"add", [.scalar .i64, .scalar .i64]⟩ ∧
      (∀ request spec, store.specialization? request = some spec →
        ∃ func names, store.funcs.find? request.func = some func ∧
          func.Elaborates (NeedsKept store) names spec) ∧
      ∀ request, ¬Relation.TransGen store.Calls request request := by
  refine ⟨⟨_, _, rfl, rfl, ?_⟩, ⟨_, _, rfl, rfl, ?_⟩, ?_⟩
  · exact ⟨_, _, List.mem_cons_self, _, _, List.mem_cons_self, _, _, .self, _, rfl,
      List.mem_cons_self⟩
  · exact ⟨_, _, List.mem_cons_self, _, _, List.mem_cons_self, _, _, .self, _, rfl,
      List.mem_cons_self⟩
  · exact calls_closed_acyclic (Reachable.run _ .start).choose_spec

end RankPoly
