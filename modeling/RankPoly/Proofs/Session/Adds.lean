import RankPoly.Proofs.Session.Flows
import RankPoly.Proofs.Session.Trail

namespace RankPoly

open Annotate (Flowing Yields)
open Session
open Ty (AllParts Stable)

-- A specialization in which all types have a property, with all that they are made of.
structure Specialization.Made (p : Ty → Prop) (spec : Specialization) : Prop where
  nodes : ∀ s ∈ Stmt.withinBlock spec.body, ∀ t ∈ s.exprs, ∀ {node : TypedExpr}, node.Within t →
    AllParts p node.ty
  env : ∀ {name ty}, spec.env.find? name = some ty → AllParts p ty
  inputs : ∀ ty ∈ spec.inputs, AllParts p ty
  returnType : AllParts p spec.returnType

-- What a later store has more than an earlier one: specializations, the arguments of which
-- have a property as they have it themselves, and calls where all types have it.
structure Store.Adds (settings : Settings) (p : Ty → Prop) (store later : Store) : Prop where
  built : ∀ request spec, (request, spec) ∈ later.built → (request, spec) ∈ store.built ∨
    (∀ arg ∈ request.args, AllParts p arg) ∧ spec.Made p ∧
      ∃ func, later.funcs.find? request.func = some func ∧
        spec.Trails settings func request.args
  calls : ∀ call ty, (call, ty) ∈ later.calls → (call, ty) ∈ store.calls ∨
    AllParts p call.callee ∧ (∀ arg ∈ call.args, AllParts p arg) ∧ AllParts p ty

variable {settings : Settings} {p : Ty → Prop} {first store later : Store}

namespace Store.Adds

theorem refl (store : Store) : store.Adds settings p store :=
  ⟨fun _ _ => Or.inl, fun _ _ => Or.inl⟩

theorem mono (h : first.Adds settings p store) (hgrows : store.Grows later)
    (hbuilt : later.built = store.built) (hcalls : later.calls = store.calls) :
    first.Adds settings p later where
  built request spec hmem := by
    refine (h.built request spec (hbuilt ▸ hmem)).imp_right ?_
    rintro ⟨hargs, hmade, func, hfunc, htrails⟩
    exact ⟨hargs, hmade, func, hgrows.funcs hfunc, htrails⟩
  calls call ty hmem := h.calls call ty (hcalls ▸ hmem)

theorem remember (h : first.Adds settings p store) {callee : Ty} {args : List Ty} {ty : Ty}
    (hcallee : AllParts p callee) (hargs : ∀ arg ∈ args, AllParts p arg) (hty : AllParts p ty) :
    first.Adds settings p { store with calls := (⟨callee, args⟩, ty) :: store.calls } where
  built := h.built
  calls call found hmem := by
    rcases List.mem_cons.mp hmem with heq | hmem
    · cases heq
      exact Or.inr ⟨hcallee, hargs, hty⟩
    · exact h.calls call found hmem

theorem keep (h : first.Adds settings p store) {request : Request} {spec : Specialization}
    {func : Func} (hargs : ∀ arg ∈ request.args, AllParts p arg) (hmade : spec.Made p)
    (hfunc : store.funcs.find? request.func = some func)
    (htrails : spec.Trails settings func request.args) :
    first.Adds settings p { store with built := (request, spec) :: store.built } where
  built other found hmem := by
    rcases List.mem_cons.mp hmem with heq | hmem
    · cases heq
      exact Or.inr ⟨hargs, hmade, func, hfunc, htrails⟩
    · exact h.built other found hmem
  calls := h.calls

end Store.Adds

theorem Annotate.func_made {ctx : Context} {P : Store → Prop}
    (hctx : Flowing p (AllParts p) P ctx) {source : Func} {args : List Ty} {spec : Specialization}
    {locals' : Locals} (hstore : P store) (hargs : ∀ arg ∈ args, AllParts p arg)
    (h : Yields (func ctx source args) {} store spec locals' later) : P later ∧ spec.Made p := by
  obtain ⟨hlater, hflows⟩ := func_flows hctx hstore (hctx.regime.admits hargs) h
  obtain ⟨binding, _, _, _, _, hbinding, -, -, -, hspec⟩ := yields_func h
  refine ⟨hlater, fun s hs => (hflows.body s hs).nodes, hflows.env, ?_, hflows.returnType⟩
  rw [hspec]
  exact (Params.bind_parts hctx.regime.stable hargs hbinding).2

-- Whatever is kept for arguments with a property has it throughout.
theorem upheld_made (hp : Stable p) : Upheld fun store => ∀ request spec,
    (request, spec) ∈ store.built → (∀ arg ∈ request.args, AllParts p arg) → spec.Made p where
  start := fun _ _ h => (List.not_mem_nil h).elim
  mono h _ hbuilt request spec hmem := h request spec (hbuilt ▸ hmem)
  keep := by
    intro defs ctx store later locals func request spec hctx hstore hyields hlater _ _ other found
      hmem hargs
    rcases List.mem_cons.mp hmem with heq | hmem
    · cases heq
      have hflowing := Flowing.of_answering hp.regime hctx fun {store} h {request ty} hargs hty => by
        obtain ⟨spec, hspec, rfl⟩ := mem_of_resultIn hty
        exact (h.2 request spec hspec hargs).returnType
      exact (Annotate.func_made hflowing hstore hargs hyields).2
    · exact hlater other found hmem hargs

-- A time of a session by which only such things have been added as are asked for with
-- arguments that have a property.
structure Adding (settings : Settings) (p : Ty → Prop) (first store : Store) : Prop where
  met : Met settings store
  adds : first.Adds settings p store

namespace Adding

theorem withWrapper (h : Adding settings p first store) (op : Prim) :
    Adding settings p first (Session.withWrapper op store) where
  met := h.met.wrapper op
  adds :=
    h.adds.mono (.withWrapper op store) (withWrapper_built op store) (withWrapper_calls op store)

theorem fresh (h : Adding settings p first store) (name : String) :
    Adding settings p first { store with fresh := (store.fresh.refresh name).2 } where
  met := h.met.fresh name
  adds := h.adds.mono ⟨id, id, by simp⟩ rfl rfl

theorem counters (h : Adding settings p first store) (counters : Counters) :
    Adding settings p first { store with counters } where
  met := h.met.counters counters
  adds := h.adds.mono ⟨id, id, le_rfl⟩ rfl rfl

-- A function that serves requests for arguments with the property, and adds only such
-- things.
def Serves (settings : Settings) (p : Ty → Prop) (first : Store)
    (specialize : Request → Session Specialization) : Prop :=
  ∀ request store spec later, Adding settings p first store → (∀ arg ∈ request.args, AllParts p arg) →
    outcome (specialize request) store = (.ok spec, later) → Adding settings p first later

theorem Serves.joinResults {specialize : Request → Session Specialization}
    (h : Serves settings p first specialize) {args : List Ty} (hargs : ∀ arg ∈ args, AllParts p arg) :
    ∀ {members : List Closure} {joined ty : Ty} {store later : Store},
      Adding settings p first store →
      (∀ member ∈ members, ∀ ty ∈ member.captured, AllParts p ty) →
      outcome (Session.joinResults specialize args members joined) store = (.ok ty, later) →
      Adding settings p first later
  | [], joined, ty, store, later, hstore, _, hjoin => by
      cases hjoin
      exact hstore
  | member :: rest, joined, ty, store, later, hstore, hmembers, hjoin => by
      obtain ⟨hmember, hrest⟩ := List.forall_mem_cons.mp hmembers
      obtain ⟨spec, between, joined', hspec, -, hjoins⟩ := Session.yields_joinResults_cons hjoin
      have hbetween := h _ _ _ _ hstore (List.forall_mem_append.mpr ⟨hmember, hargs⟩) hspec
      exact h.joinResults hargs hbetween hrest hjoins

end Adding

namespace Session

-- Calls among types with the property are answered with the property, and so is what they
-- add.
theorem flowing_adding (hp : Stable p) (hpasses : settings.Keeps p) {depth : Nat}
    {waiting : List Request}
    (hserves : Adding.Serves settings p first (specializeWithin settings depth waiting)) :
    Flowing p (AllParts p) (Adding settings p first) (settings.context depth waiting) where
  regime := hp.regime
  fresh name h := h.fresh name
  addWrapper op h := h.withWrapper op
  invoke := by
    intro store callee args ty later hstore hcallee hargs h
    change outcome (invokeWith (specializeWithin settings depth waiting) callee args) store =
      (.ok ty, later) at h
    have hgrows := grows_invokeWith settings depth waiting callee args store
    have hmet := hstore.met.invoke depth waiting callee args
    have hkept := lasting_sure hp.regime hpasses
    have hanswer := invokeWith_answer
      (serves_specializeWithin (kept_trivial settings) depth waiting)
      (hkept.of_met hstore.met).coherent h
    rw [h] at hgrows hmet
    have hty := hp.answer (hkept.of_met hmet).answers hargs hcallee hanswer
    refine ⟨hgrows, ⟨hmet, ?_⟩, hty⟩
    rw [outcome_invokeWith] at h
    split at h
    · cases h
      exact (hstore.counters _).adds
    · split at h
      · cases h
      · rename_i members hmembers
        rcases hjoin : outcome (joinResults (specializeWithin settings depth waiting) args members
          .unknown) store with ⟨error | joined, between⟩ <;> rw [hjoin] at h
        · cases h
        · cases h
          have hbetween := hserves.joinResults hargs hstore (hcallee.captured hmembers) hjoin
          exact hbetween.adds.remember hcallee hargs hty

-- A new specialization for arguments with the property has it throughout, and all that is
-- added while it is built does so, too.
theorem serves_adding (hp : Stable p) (limits : Limits) : ∀ (depth : Nat) (waiting : List Request),
    Adding.Serves (.ofLimits limits) p first (specializeWithin (.ofLimits limits) depth waiting)
  | depth, waiting, request, store, spec, later, hstore, hargs, h => by
      cases hspec : store.specialization? request with
      | some known =>
          rw [outcome_specializeWithin_cached hspec] at h
          cases h
          exact hstore.counters _
      | none =>
          have hmet := hstore.met.specialize depth waiting request
          have hgrows := grows_specializeWithin (.ofLimits limits) depth waiting request store
          rw [h] at hmet hgrows
          obtain ⟨below, func, built, between, rfl, -, hfunc, hbuild, hkeep⟩ :=
            built_of_specializeWithin hspec h
          obtain ⟨last, hannotate, rfl⟩ := annotate_of_build hbuild
          obtain ⟨locals, hyields⟩ := Annotate.yields_of_annotate hannotate
          have hinferring : Adding (.ofLimits limits) p first (inferring store) := hstore.counters _
          have hctx := flowing_adding hp (Settings.keeps_ofLimits limits p)
            (serves_adding hp limits below (request :: waiting))
          obtain ⟨hlast, hmade⟩ := Annotate.func_made hctx hinferring hargs hyields
          have htrails := Annotate.func_trails hinferring.met hyields
          have hpassing : Adding (.ofLimits limits) p first (passing last) := hlast.counters _
          rw [outcome_keep] at hkeep
          split at hkeep
          · cases hkeep
            exact hpassing
          · cases hkeep
            exact ⟨hmet, hpassing.adds.keep hargs hmade (hgrows.funcs hfunc) htrails⟩

end Session

end RankPoly
