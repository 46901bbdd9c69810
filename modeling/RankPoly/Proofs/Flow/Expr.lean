import RankPoly.Proofs.Elaboration.Expr
import RankPoly.Proofs.Flow.Bounded

namespace RankPoly.Annotate

open Session (withWrapper)
open Ty (AllParts)

-- What holds between any two steps of an annotation: what is known of variables is
-- of the kind that is wanted.
structure Held (p bound : Ty → Prop) (P : Store → Prop) (locals : Locals) (store : Store) :
    Prop where
  store : P store
  env : ∀ {name ty}, locals.env.find? name = some ty → bound ty

-- What annotations rely on for what they give to be of the wanted kind: so is what
-- calls give that are made with such types.
structure Flowing (p bound : Ty → Prop) (P : Store → Prop) (ctx : Context) : Prop where
  regime : Regime p bound
  fresh : ∀ {store} name, P store → P { store with fresh := (store.fresh.refresh name).2 }
  addWrapper : ∀ {store} op, P store → P (withWrapper op store)
  invoke : ∀ {store callee args ty later}, P store → AllParts p callee →
    (∀ arg ∈ args, AllParts p arg) → Session.Yields (ctx.invoke callee args) store ty later →
    store.Grows later ∧ P later ∧ AllParts p ty

variable {p bound : Ty → Prop} {P : Store → Prop} {ctx : Context} {locals locals' : Locals}
  {store later : Store} {env : NameMap Ty}

-- Calls that are answered by what is kept give types of the wanted kind, if what
-- is kept does.
theorem Flowing.of_answering (hp : Regime p bound) (hctx : Answering P ctx)
    (hanswers : ∀ {store}, P store → store.Answers p) : Flowing p bound P ctx where
  regime := hp
  fresh := hctx.fresh
  addWrapper := hctx.addWrapper
  invoke := by
    intro store callee args ty later hstore hcallee hargs h
    obtain ⟨hgrows, hlater, hanswer⟩ := hctx.invoke hstore h
    exact ⟨hgrows, hlater, hp.stable.answer (hanswers hlater) hargs hcallee hanswer⟩

-- To start with nothing is known of any variable.
theorem Held.start (hstore : P store) : Held p bound P {} store :=
  ⟨hstore, nofun⟩

theorem Held.advance (h : Held p bound P locals store)
    (hadvances : Advances P locals store locals' later) : Held p bound P locals' later :=
  ⟨hadvances.kept, hadvances.locals_eq ▸ h.env⟩

-- A new local has no type yet.
theorem Held.rename (h : Held p bound P locals store) (hctx : Flowing p bound P ctx)
    {name known : String} (hrename : Yields (rename name) locals store known locals' later) :
    Held p bound P locals' later := by
  obtain ⟨rfl, rfl, rfl⟩ := yields_rename.mp hrename
  exact ⟨hctx.fresh name h.store, h.env⟩

theorem Flowing.call (hctx : Flowing p bound P ctx) (hstore : P store) {callee : Ty}
    {args : List Ty} {ty : Ty} (hcallee : AllParts p callee) (hargs : ∀ arg ∈ args, AllParts p arg)
    (h : Yields (liftM (ctx.invoke callee args)) locals store ty locals' later) :
    Advances P locals store locals' later ∧ AllParts p ty := by
  obtain ⟨rfl, hinvoke⟩ := yields_lift.mp h
  obtain ⟨hgrows, hlater, hty⟩ := hctx.invoke hstore hcallee hargs hinvoke
  exact ⟨⟨rfl, hgrows, hlater⟩, hty⟩

theorem typesOf_parts {ts : List TypedExpr} (h : ∀ t ∈ ts, t.Reads p env) :
    ∀ ty ∈ typesOf ts, AllParts p ty := by
  intro ty hty
  obtain ⟨t, ht, rfl⟩ := List.mem_map.mp hty
  exact (h t ht).ty

theorem reads_wrapper (hp : Ty.Stable p) (op : Prim) :
    (TypedExpr.closure (Session.wrapperName op) [] (.closure ⟨Session.wrapperName op, []⟩)).Reads
      p env := by
  refine .of_children (Ty.allParts_closure.mpr ⟨hp.closure _, ?_⟩) ?_ (by simp)
  · simp
  · simp [TypedExpr.children]

theorem applyPrim_reads (hctx : Flowing p bound P ctx) (hstore : P store) {op : Prim}
    {ts : List TypedExpr} {t : TypedExpr} (hts : ∀ t ∈ ts, t.Reads p env)
    (h : Yields (applyPrim ctx op ts) locals store t locals' later) :
    Advances P locals store locals' later ∧ t.Reads p env := by
  have hp := hctx.regime.stable
  obtain ⟨-, rfl, ⟨kinds, -, rfl, rfl⟩ | ⟨-, kinds, elem, ty, -, hcall, hty, rfl⟩⟩ :=
    yields_applyPrim.mp h
  · exact ⟨.refl hstore, .of_children (Ty.allParts_scalar.mpr (hp.scalar _)) hts (by simp)⟩
  · have hcallee : TypedExpr.Reads p env _ := reads_wrapper hp op
    have hinputs : ∀ arg ∈ (op.inputs kinds).map Ty.scalar, AllParts p arg := by
      intro arg harg
      obtain ⟨kind, -, rfl⟩ := List.mem_map.mp harg
      exact Ty.allParts_scalar.mpr (hp.scalar kind)
    obtain ⟨hgrows, hlater, helem⟩ :=
      hctx.invoke (hctx.addWrapper op hstore) hcallee.ty hinputs hcall
    refine ⟨⟨rfl, (Store.Grows.withWrapper op store).trans hgrows, hlater⟩, ?_⟩
    refine .of_children (hp.increaseRank hty fun _ => helem) ?_ (by simp)
    exact List.forall_mem_append.mpr ⟨hts, List.forall_mem_singleton.mpr hcallee⟩

theorem applyMap_reads (hctx : Flowing p bound P ctx) (hstore : P store) {callee t : TypedExpr}
    {ts : List TypedExpr} {axis : Option Nat} (hcallee : callee.Reads p env)
    (hts : ∀ t ∈ ts, t.Reads p env)
    (h : Yields (applyMap ctx callee ts axis) locals store t locals' later) :
    Advances P locals store locals' later ∧ t.Reads p env := by
  have hp := hctx.regime.stable
  obtain ⟨axis, nested, elem, ty, -, -, hnested, hcall, hty, rfl, rfl⟩ := yields_applyMap.mp h
  obtain ⟨hgrows, hlater, helem⟩ :=
    hctx.invoke hstore hcallee.ty (hp.lowerRanks hnested (typesOf_parts hts)) hcall
  refine ⟨⟨rfl, hgrows, hlater⟩, .of_children (hp.increaseRank hty fun _ => helem) ?_ (by simp)⟩
  exact List.forall_mem_append.mpr ⟨hts, List.forall_mem_singleton.mpr hcallee⟩

theorem Calls.advance (hctx : Flowing p bound P ctx) {args callees tys : List Ty}
    (h : Calls ctx args callees store tys later) (hstore : P store)
    (hcallees : ∀ callee ∈ callees, AllParts p callee) (hargs : ∀ arg ∈ args, AllParts p arg) :
    store.Grows later ∧ P later := by
  induction h with
  | nil => exact ⟨.refl _, hstore⟩
  | cons hcall _ ih =>
      obtain ⟨hcallee, hcallees⟩ := List.forall_mem_cons.mp hcallees
      obtain ⟨hgrows, hkept, -⟩ := hctx.invoke hstore hcallee hargs hcall
      obtain ⟨hgrows', hkept'⟩ := ih hkept hcallees
      exact ⟨hgrows.trans hgrows', hkept'⟩

theorem applyFold_reads (hctx : Flowing p bound P ctx) (hstore : P store) {kind : Fold}
    {callee arg t : TypedExpr} {combiner : Option TypedExpr} {axis : Option Nat}
    (hcallee : callee.Reads p env) (hcombiner : ∀ t ∈ combiner, t.Reads p env)
    (harg : arg.Reads p env)
    (h : Yields (applyFold ctx kind callee combiner arg axis) locals store t locals' later) :
    Advances P locals store locals' later ∧ t.Reads p env := by
  have hp := hctx.regime.stable
  obtain ⟨axis, acc, ty, -, -, hacc, hcalls, hty, rfl, rfl⟩ := yields_applyFold.mp h
  have hacc := hp.lowerRank hacc harg.ty
  have hcallees : ∀ t ∈ callee :: combiner.toList, t.Reads p env :=
    List.forall_mem_cons.mpr ⟨hcallee, by simpa using hcombiner⟩
  obtain ⟨hgrows, hlater⟩ :=
    hcalls.advance hctx hstore (typesOf_parts hcallees) (by simpa using hacc)
  refine ⟨⟨rfl, hgrows, hlater⟩, .of_children ?_ ?_ (by simp)⟩
  · -- The type is that of what has been folded, or of all steps of it.
    cases kind with
    | reduce =>
        cases hty
        exact hacc
    | scan => exact hp.increaseRank hty fun _ => hacc
  · exact List.forall_mem_cons.mpr ⟨harg, hcallees⟩

theorem elementTypes_parts (hp : Ty.Stable p) {tys : List Ty} (htys : ∀ ty ∈ tys, AllParts p ty) :
    ∀ ty ∈ Ty.elementTypes tys, AllParts p ty := by
  intro ty hty
  obtain ⟨whole, hwhole, rfl⟩ := List.mem_map.mp hty
  cases whole with
  | array elem rank => exact Ty.allParts_scalar.mpr (hp.scalar elem)
  | _ => exact htys _ hwhole

theorem PairTypes.parts (hp : Ty.Stable p) {tys nested : List Ty} {given : Option Nat}
    (h : PairTypes tys given nested) (htys : ∀ ty ∈ tys, AllParts p ty) :
    ∀ ty ∈ nested, AllParts p ty := by
  cases h with
  | elements => exact elementTypes_parts hp htys
  | along _ hnested => exact hp.lowerRanks hnested htys

theorem applyAllPairs_reads (hctx : Flowing p bound P ctx) (hstore : P store)
    {callee lhs rhs t : TypedExpr} {axis : Option Nat} (hcallee : callee.Reads p env)
    (hlhs : lhs.Reads p env) (hrhs : rhs.Reads p env)
    (h : Yields (applyAllPairs ctx callee lhs rhs axis) locals store t locals' later) :
    Advances P locals store locals' later ∧ t.Reads p env := by
  have hp := hctx.regime.stable
  have htys : ∀ ty ∈ [lhs.ty, rhs.ty], AllParts p ty := by simp [hlhs.ty, hrhs.ty]
  have hparts : ∀ t ∈ [lhs, rhs, callee], t.Reads p env := by simp [hlhs, hrhs, hcallee]
  obtain ⟨nested, elem, ty, hnested, hcall, hty, rfl, rfl⟩ := yields_applyAllPairs.mp h
  obtain ⟨hgrows, hlater, helem⟩ := hctx.invoke hstore hcallee.ty (hnested.parts hp htys) hcall
  exact ⟨⟨rfl, hgrows, hlater⟩, .of_children (hp.increaseRank hty fun _ => helem) hparts (by simp)⟩

mutual

-- An expression is made of what the variables in it are made of, and of what is
-- called. Its variables are as they are known, as nothing is bound in it.
theorem expr_flows (hctx : Flowing p bound P ctx) : ∀ (e : Expr) {locals locals' : Locals}
    {store later : Store} {t : TypedExpr}, Held p bound P locals store →
      Yields (expr ctx e) locals store t locals' later →
      Advances P locals store locals' later ∧ t.Reads p locals.env
  | .var name, locals, locals', store, later, t, hheld, h => by
      obtain ⟨known, ty, -, hty, hne, rfl, rfl, rfl⟩ := yields_var h
      exact ⟨.refl hheld.store, .var (hctx.regime.known (hheld.env hty) hne) hty⟩
  | .const value, locals, locals', store, later, t, hheld, h => by
      obtain ⟨rfl, rfl, rfl⟩ := yields_const h
      refine ⟨.refl hheld.store, .of_children (hctx.regime.stable.const value) ?_ (by simp)⟩
      simp [TypedExpr.children]
  | .tuple es, locals, locals', store, later, t, hheld, h => by
      obtain ⟨ts, hexprs, rfl⟩ := yields_tuple h
      obtain ⟨hadvances, hts⟩ := exprs_flow hctx es hheld hexprs
      refine ⟨hadvances, .of_children ?_ hts (by simp)⟩
      exact Ty.allParts_tuple.mpr ⟨hctx.regime.stable.tuple _, typesOf_parts hts⟩
  | .array es, locals, locals', store, later, t, hheld, h => by
      obtain ⟨ts, elem, ty, -, hexprs, -, hty, rfl⟩ := yields_array h
      obtain ⟨hadvances, hts⟩ := exprs_flow hctx es hheld hexprs
      refine ⟨hadvances, .of_children ?_ hts (by simp)⟩
      exact hctx.regime.stable.increaseRank hty (absurd · (Nat.succ_ne_zero 0))
  | .index e i, locals, locals', store, later, t, hheld, h => by
      obtain ⟨value, _, _, hexpr, h⟩ := yields_index h
      obtain ⟨hadvances, hvalue⟩ := expr_flows hctx e hheld hexpr
      rcases h with ⟨elems, hty, hproject⟩ | ⟨-, index, ty, hindex, hty, rfl⟩
      · obtain ⟨index, slot, ty, rfl, rfl, -, hfound, rfl, rfl⟩ := yields_projectFrom hproject
        have hparts := hvalue.ty
        rw [hty] at hparts
        refine ⟨hadvances, .of_children ?_ (List.forall_mem_singleton.mpr hvalue) (by simp)⟩
        exact (Ty.allParts_tuple.mp hparts).2 _ (List.mem_of_getElem? hfound)
      · obtain ⟨hadvances', hi⟩ := expr_flows hctx i (hheld.advance hadvances) hindex
        cases hadvances.locals_eq
        have hty := hctx.regime.stable.indexType hty hvalue.ty
        refine ⟨hadvances.trans hadvances', .of_children hty ?_ (by simp)⟩
        exact List.forall_mem_cons.mpr ⟨hvalue, List.forall_mem_singleton.mpr hi⟩
  | .slice a b c, locals, locals', store, later, t, hheld, h => by
      obtain ⟨start, _, _, stop, _, _, step, hstart, hstop, hstep, rfl⟩ := yields_slice h
      obtain ⟨hadvances, ha⟩ := expr_flows hctx a hheld hstart
      cases hadvances.locals_eq
      obtain ⟨hadvances', hb⟩ := expr_flows hctx b (hheld.advance hadvances) hstop
      cases hadvances'.locals_eq
      obtain ⟨hadvances'', hc⟩ :=
        expr_flows hctx c (hheld.advance (hadvances.trans hadvances')) hstep
      refine ⟨(hadvances.trans hadvances').trans hadvances'', .of_children ?_ ?_ (by simp)⟩
      · exact Ty.allParts_slice.mpr ⟨hctx.regime.stable.slice _ _ _, ha.ty, hb.ty, hc.ty⟩
      · simp [TypedExpr.children, ha, hb, hc]
  | .attribute e name, locals, locals', store, later, t, hheld, h => by
      obtain ⟨value, ty, hexpr, hfield, rfl⟩ := yields_attribute h
      obtain ⟨hadvances, hvalue⟩ := expr_flows hctx e hheld hexpr
      obtain ⟨⟨fields, hfields, hty⟩, -, -⟩ := yields_fieldType hfield
      have hparts := hvalue.ty
      rw [hfields] at hparts
      refine ⟨hadvances, .of_children ?_ (List.forall_mem_singleton.mpr hvalue) (by simp)⟩
      exact (Ty.allParts_struct.mp hparts).2 _ (NameMap.mem_of_find? hty)
  | .prim op es, locals, locals', store, later, t, hheld, h => by
      obtain ⟨ts, _, _, hexprs, happly⟩ := yields_prim h
      obtain ⟨hadvances, hts⟩ := exprs_flow hctx es hheld hexprs
      obtain ⟨hadvances', ht⟩ := applyPrim_reads hctx hadvances.kept hts happly
      exact ⟨hadvances.trans hadvances', ht⟩
  | .closure func es, locals, locals', store, later, t, hheld, h => by
      obtain ⟨ts, -, hexprs, rfl⟩ := yields_closure h
      obtain ⟨hadvances, hts⟩ := exprs_flow hctx es hheld hexprs
      refine ⟨hadvances, .of_children ?_ hts (by simp)⟩
      exact Ty.allParts_closure.mpr ⟨hctx.regime.stable.closure _, typesOf_parts hts⟩
  | .invoke f es, locals, locals', store, later, t, hheld, h => by
      obtain ⟨callee, _, _, ts, _, _, ty, hexpr, -, hexprs, hcall, rfl⟩ := yields_invoke h
      obtain ⟨hadvances, hf⟩ := expr_flows hctx f hheld hexpr
      cases hadvances.locals_eq
      obtain ⟨hadvances', hts⟩ := exprs_flow hctx es (hheld.advance hadvances) hexprs
      obtain ⟨hadvances'', hty⟩ := hctx.call hadvances'.kept hf.ty (typesOf_parts hts) hcall
      refine ⟨(hadvances.trans hadvances').trans hadvances'', .of_children hty ?_ (by simp)⟩
      exact List.forall_mem_append.mpr ⟨hts, List.forall_mem_singleton.mpr hf⟩
  | .map f es operand, locals, locals', store, later, t, hheld, h => by
      obtain ⟨axis, callee, _, _, ts, _, _, -, hexpr, -, hexprs, happly⟩ := yields_map.mp h
      obtain ⟨hadvances, hf⟩ := expr_flows hctx f hheld hexpr
      cases hadvances.locals_eq
      obtain ⟨hadvances', hts⟩ := exprs_flow hctx es (hheld.advance hadvances) hexprs
      obtain ⟨hadvances'', ht⟩ := applyMap_reads hctx hadvances'.kept hf hts happly
      exact ⟨(hadvances.trans hadvances').trans hadvances'', ht⟩
  | .fold kind f [e] operand none c, locals, locals', store, later, t, hheld, h => by
      obtain ⟨axis, callee, _, _, c', _, _, x, _, _, -, hexpr, -, hcombiner, harg, happly⟩ :=
        yields_fold.mp h
      obtain ⟨hadvances, hf⟩ := expr_flows hctx f hheld hexpr
      cases hadvances.locals_eq
      obtain ⟨hadvances', hc⟩ := optionalCallee_flows hctx c (hheld.advance hadvances) hcombiner
      cases hadvances'.locals_eq
      have hadvances := hadvances.trans hadvances'
      obtain ⟨hadvances', he⟩ := expr_flows hctx e (hheld.advance hadvances) harg
      obtain ⟨hlast, ht⟩ := applyFold_reads hctx hadvances'.kept hf hc he happly
      exact ⟨(hadvances.trans hadvances').trans hlast, ht⟩
  | .fold _ _ _ _ (some _) _, _, _, _, _, _, _, h
  | .fold _ _ [] _ none _, _, _, _, _, _, _, h
  | .fold _ _ (_ :: _ :: _) _ none _, _, _, _, _, _, _, h => by
      obtain ⟨⟨⟩, _, ⟨⟩⟩ := fold_of_yields h
  | .allPairs f [a, b] operand, locals, locals', store, later, t, hheld, h => by
      obtain ⟨axis, callee, _, _, x, _, _, y, _, _, -, hexpr, -, hleft, hright, happly⟩ :=
        yields_allPairs.mp h
      obtain ⟨hadvances, hf⟩ := expr_flows hctx f hheld hexpr
      cases hadvances.locals_eq
      obtain ⟨hadvances', ha⟩ := expr_flows hctx a (hheld.advance hadvances) hleft
      cases hadvances'.locals_eq
      have hadvances := hadvances.trans hadvances'
      obtain ⟨hadvances', hb⟩ := expr_flows hctx b (hheld.advance hadvances) hright
      obtain ⟨hlast, ht⟩ := applyAllPairs_reads hctx hadvances'.kept hf ha hb happly
      exact ⟨(hadvances.trans hadvances').trans hlast, ht⟩
  | .allPairs _ [] _, _, _, _, _, _, _, h
  | .allPairs _ [_] _, _, _, _, _, _, _, h
  | .allPairs _ (_ :: _ :: _ :: _) _, _, _, _, _, _, _, h => by
      obtain ⟨_, _, ⟨⟩⟩ := pair_of_yields h
  termination_by structural e => e

theorem exprs_flow (hctx : Flowing p bound P ctx) : ∀ (es : List Expr) {locals locals' : Locals}
    {store later : Store} {ts : List TypedExpr}, Held p bound P locals store →
      Yields (exprs ctx es) locals store ts locals' later →
      Advances P locals store locals' later ∧ ∀ t ∈ ts, t.Reads p locals.env
  | [], locals, locals', store, later, ts, hheld, h => by
      obtain ⟨rfl, rfl, rfl⟩ := yields_exprs_nil h
      exact ⟨.refl hheld.store, List.forall_mem_nil _⟩
  | e :: es, locals, locals', store, later, ts, hheld, h => by
      obtain ⟨t, _, _, ts, hexpr, hexprs, rfl⟩ := yields_exprs_cons h
      obtain ⟨hadvances, ht⟩ := expr_flows hctx e hheld hexpr
      cases hadvances.locals_eq
      obtain ⟨hadvances', hts⟩ := exprs_flow hctx es (hheld.advance hadvances) hexprs
      exact ⟨hadvances.trans hadvances', List.forall_mem_cons.mpr ⟨ht, hts⟩⟩
  termination_by structural es => es

theorem optionalCallee_flows (hctx : Flowing p bound P ctx) : ∀ (c : Option Expr)
    {locals locals' : Locals} {store later : Store} {c' : Option TypedExpr},
      Held p bound P locals store → Yields (optionalCallee ctx c) locals store c' locals' later →
      Advances P locals store locals' later ∧ ∀ t ∈ c', t.Reads p locals.env
  | none, locals, locals', store, later, c', hheld, h => by
      obtain ⟨rfl, rfl, rfl⟩ := yields_optionalCallee_none h
      exact ⟨.refl hheld.store, nofun⟩
  | some c, locals, locals', store, later, c', hheld, h => by
      obtain ⟨callee, hexpr, -, rfl⟩ := yields_optionalCallee_some h
      obtain ⟨hadvances, hc⟩ := expr_flows hctx c hheld hexpr
      exact ⟨hadvances, by simpa using hc⟩
  termination_by structural c => c

end

end RankPoly.Annotate
