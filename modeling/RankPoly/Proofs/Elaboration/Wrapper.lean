import RankPoly.Proofs.Elaboration.Func
import RankPoly.Proofs.Leaves
import RankPoly.Proofs.Ty.Rank

namespace RankPoly

-- The kinds that an operator takes are taken as they are.
theorem Prim.inputs_inputs (op : Prim) (kinds : List Scalar) :
    op.inputs (op.inputs kinds) = op.inputs kinds := by
  have hfold : ∀ (kind : Scalar) (others : List Scalar),
      (others.map fun _ => kind).foldl Scalar.promote kind = kind := by
    intro kind others
    induction others with
    | nil => rfl
    | cons other others ih =>
        rw [List.map_cons, List.foldl_cons, show Scalar.promote kind kind = kind from if_pos rfl, ih]
  have hjoin : ∀ kind : Scalar, kinds ≠ [] → join (kinds.map fun _ => kind) = kind := by
    intro kind hne
    cases kinds with
    | nil => exact (hne rfl).elim
    | cons first rest => exact hfold kind rest
  have hfloat : (floatJoin kinds).isFloat = true := by
    unfold floatJoin
    split
    · assumption
    · rfl
  by_cases hne : kinds = []
  · subst hne
    cases op <;> rfl
  · have hfloatJoin : floatJoin (kinds.map fun _ => floatJoin kinds) = floatJoin kinds := by
      rw [floatJoin, hjoin _ hne, if_pos hfloat]
    cases op <;> simp only [inputs, List.map_map, Function.comp_def, hjoin _ hne, hfloatJoin]

theorem Prim.result_inputs (op : Prim) (kinds : List Scalar) :
    op.result (op.inputs kinds) = op.result kinds := by
  unfold result
  rw [inputs_inputs]

theorem Prim.length_inputs (op : Prim) (kinds : List Scalar) :
    (op.inputs kinds).length = kinds.length := by
  cases op <;> simp [inputs]

-- A variable that can be read, and has a type.
def Locals.Reads (locals : Locals) (name : String) (ty : Ty) : Prop :=
  ∃ known, locals.naming name known ∧ locals.env.find? known = some ty

namespace Annotate

open Session (withWrapper wrapper wrapperName)

variable {ctx : Context} {locals : Locals} {store : Store}

-- Parameters of different names can be bound, and read from then on. Nothing else is lost.
theorem bindParams_reads : ∀ (bound : List (String × Ty)) {locals : Locals} {store : Store},
    (bound.map Prod.fst).Nodup →
      (∀ {known ty}, locals.env.find? known = some ty → store.fresh.Drew known) →
      ∃ locals' fresh, Yields (bindParams bound) locals store () locals' { store with fresh } ∧
        (∀ name ∉ bound.map Prod.fst, ∀ ty, locals.Reads name ty → locals'.Reads name ty) ∧
        (∀ entry ∈ bound, locals'.Reads entry.1 entry.2) ∧ locals'.returnType = locals.returnType
  | [], locals, store, _, _ =>
      ⟨locals, store.fresh, rfl, fun _ _ _ h => h, fun _ h => (List.not_mem_nil h).elim, rfl⟩
  | (name, ty) :: rest, locals, store, hnodup, hdrawn => by
      have hnew : locals.env.find? (store.fresh.refresh name).1 = none := by
        cases hfound : locals.env.find? (store.fresh.refresh name).1 with
        | none => rfl
        | some found => exact (Fresh.not_drew_refresh _ _ (hdrawn hfound)).elim
      obtain ⟨hname, hnodup⟩ := List.nodup_cons.mp hnodup
      let entered : Locals :=
        { locals with
          names := NameMap.insert name (store.fresh.refresh name).1 locals.names
          env := NameMap.insert (store.fresh.refresh name).1 ty locals.env }
      have hdrawn' : ∀ {known found}, entered.env.find? known = some found →
          (store.fresh.refresh name).2.Drew known := by
        intro known found hfound
        rw [NameMap.find?_insert] at hfound
        split at hfound
        · rename_i heq
          exact heq ▸ Fresh.drew_refresh _ _
        · exact (hdrawn hfound).mono (by simp)
      obtain ⟨locals', fresh, hrest, hkeep, hreads, hreturn⟩ :=
        @bindParams_reads rest entered { store with fresh := (store.fresh.refresh name).2 } hnodup
          hdrawn'
      refine ⟨locals', fresh, ?_, ?_, ?_, hreturn⟩
      · simp only [bindParams, yields_bind, yields_rename, yields_widen]
        exact ⟨_, _, _, ⟨rfl, rfl, rfl⟩, ty, _, _, ⟨by rw [hnew], rfl, rfl⟩, hrest⟩
      · intro other hother ty hty
        obtain ⟨hne, hother⟩ := not_or.mp (mt List.mem_cons.mpr hother)
        obtain ⟨known, hknown, henv⟩ := hty
        refine hkeep other hother ty ⟨known, ?_, ?_⟩
        · exact (NameMap.find?_insert_of_ne _ _ (Ne.symm hne)).trans hknown
        · exact NameMap.find?_insert_of_free hnew henv
      · intro entry hentry
        rcases List.mem_cons.mp hentry with rfl | hentry
        · exact hkeep name hname _
            ⟨_, NameMap.find?_insert_self _ _ _, NameMap.find?_insert_self _ _ _⟩
        · exact hreads entry hentry

theorem exprs_vars {names : List String} {tys : List Ty}
    (hreads : List.Forall₂ locals.Reads names tys) (hknown : .unknown ∉ tys) :
    ∃ ts, Yields (exprs ctx (names.map Expr.var)) locals store ts locals store ∧
      typesOf ts = tys := by
  induction hreads with
  | nil => exact ⟨[], rfl, rfl⟩
  | @cons name ty _ _ hname _ ih =>
      obtain ⟨hne, hknown⟩ := not_or.mp (mt List.mem_cons.mpr hknown)
      obtain ⟨ts, hexprs, htys⟩ := ih hknown
      obtain ⟨known, hlocal, hty⟩ := hname
      have hread : Yields (read name) locals store (known, ty) locals store := by
        unfold Yields
        have hlocal : NameMap.find? name locals.names = some known := hlocal
        rw [outcome_read]
        simp only [hlocal, hty]
        cases ty <;> first | rfl | exact (hne rfl).elim
      refine ⟨.var known ty :: ts, ?_, congrArg (List.cons ty) htys⟩
      simp only [List.map_cons, exprs, expr, yields_bind, Prod.exists, yields_pure]
      exact ⟨_, _, _, ⟨known, ty, _, _, hread, rfl, rfl, rfl⟩, ts, _, _, hexprs, rfl, rfl, rfl⟩

theorem bindPositional_zip (defaults : NameMap Const) : ∀ {names : List String} {tys : List Ty},
    names.length = tys.length →
      Params.bindPositional defaults names tys = .ok (names.zip tys, [])
  | [], [], _ => rfl
  | name :: names, ty :: tys, h => by
      unfold Params.bindPositional
      rw [bindPositional_zip defaults (Nat.succ.inj h)]
      rfl

theorem wrapper_names_nodup (op : Prim) :
    ((List.range op.arity).map fun i => "x" ++ toString i).Nodup := by
  cases op <;> decide

theorem wrapper_bind {op : Prim} {tys : List Ty} (hlength : tys.length = op.arity) :
    (wrapper op).params.bind tys =
      .ok { params := (wrapper op).params.positional.zip tys, inputs := tys } := by
  have hnames : (wrapper op).params.positional.length = tys.length := by simp [wrapper, hlength]
  rw [Params.bind_eq, bindPositional_zip _ hnames]
  simp [wrapper, List.map_snd_zip, hlength]

theorem lift_leaves {α : Type} {m : Session α} {done : α → Prop}
    {failed : SpecializeError → Store → Prop}
    (h : (Session.outcome m store).Leaves (fun a _ => done a) failed) :
    (outcome (liftM m) locals store).Leaves (fun result _ => done result.1 ∧ result.2 = locals)
      failed := by
  rw [outcome_lift]
  exact h.andThen fun _ _ ha => ⟨ha, rfl⟩

-- An operator on scalars and arrays gives arrays of the highest rank among them, if its
-- wrapper gives what it gives for scalars. Where all are scalars the wrapper is not asked.
theorem applyPrim_ranked {op : Prim} {ts : List TypedExpr} {kinds : List Scalar}
    {failed : SpecializeError → Store → Prop} (hlength : kinds.length = op.arity)
    (hkinds : List.Forall₂ Ty.HasKind (typesOf ts) kinds)
    (hinvoke : (typesOf ts).mapM Ty.scalar? = none →
      (Session.outcome (ctx.invoke (.closure ⟨wrapperName op, []⟩)
        ((op.inputs kinds).map Ty.scalar)) (withWrapper op store)).Leaves
          (fun elem _ => elem = .scalar (op.result kinds)) failed) :
    (outcome (applyPrim ctx op ts) locals store).Leaves
      (fun result _ => result.1.ty = .ofRank (op.result kinds) (Ty.maxRank (typesOf ts)) ∧
        result.2 = locals) failed := by
  have helems := Ty.mapM_elementKind?_of_hasKind hkinds
  have harity : ts.length = op.arity := by rw [← length_typesOf, hkinds.length_eq, hlength]
  unfold applyPrim
  simp only [require, harity, decide_true, if_true, pure_bind]
  cases hscalar : (typesOf ts).mapM Ty.scalar? with
  | some scalars =>
      have htys := mapM_scalar?_eq hscalar
      have hsame : scalars = kinds := by
        rw [htys, Ty.mapM_elementKind?_of_hasKind (Ty.forall₂_hasKind_scalars scalars)] at helems
        exact Option.some.inj helems
      simp only [htys, Ty.maxRank_scalars, hsame]
      exact ⟨rfl, rfl⟩
  | none =>
      simp only [helems, outcome_bind, outcome_lift _ locals store, Session.outcome_primWrapper,
        Outcome.andThen_ok]
      refine .andThen (lift_leaves (hinvoke hscalar)) ?_
      rintro ⟨_, _⟩ later ⟨rfl, rfl⟩
      simp only [Ty.increaseRank_scalar]
      exact ⟨rfl, rfl⟩

-- A map of a function that gives arrays of the highest rank among its arguments does so too,
-- along whatever axis there is.
theorem applyMap_ranked {callee : TypedExpr} {ts : List TypedExpr} {axis : Option Nat}
    {kinds : List Scalar} {kind : Scalar} {failed : SpecializeError → Store → Prop}
    (hkinds : List.Forall₂ Ty.HasKind (typesOf ts) kinds)
    (haxis : ∀ i ∈ axis, i < Ty.maxRank (typesOf ts))
    (hinvoke : ∀ nested, List.Forall₂ Ty.HasKind nested kinds →
      (Session.outcome (ctx.invoke callee.ty nested) store).Leaves
        (fun elem _ => elem = .ofRank kind (Ty.maxRank nested)) failed) :
    (outcome (applyMap ctx callee ts axis) locals store).Leaves
      (fun result _ => result.1.ty = .ofRank kind (Ty.maxRank (typesOf ts)) ∧
        result.2 = locals) failed := by
  have hrank := axisCount_le (recordedAxis_lt haxis)
  have hone := axisCount_le_one (recordedAxis axis (Ty.maxRank (typesOf ts)))
  obtain ⟨nested, hnested, hnestedKinds, hnestedRank⟩ := Ty.lowerRanks_of_hasKind hone hkinds
  unfold applyMap
  simp only [outerAxes_eq haxis, pure_bind, hnested, ofTy, outcome_bind]
  refine .andThen (lift_leaves (hinvoke nested hnestedKinds)) ?_
  rintro ⟨_, _⟩ later ⟨rfl, rfl⟩
  simp only [hnestedRank, Ty.increaseRank_ofRank, Nat.sub_add_cancel hrank]
  exact ⟨rfl, rfl⟩

-- In the body of a wrapper its parameters can be read, and nothing has been returned yet.
theorem wrapper_operands (ctx : Context) (store : Store) {op : Prim} {tys : List Ty}
    (hlength : tys.length = op.arity) (hknown : .unknown ∉ tys) :
    ∃ entered fresh ts,
      Yields (bindParams ((wrapper op).params.positional.zip tys)) {} store () entered
        { store with fresh } ∧
      Yields (exprs ctx ((wrapper op).params.positional.map Expr.var)) entered
        { store with fresh } ts entered { store with fresh } ∧
      typesOf ts = tys ∧ entered.returnType = none := by
  have hnodup : (((wrapper op).params.positional.zip tys).map Prod.fst).Nodup := by
    rw [List.map_fst_zip (by simp [wrapper, hlength])]
    exact wrapper_names_nodup op
  have hempty : ∀ {known : String} {ty : Ty},
      NameMap.find? known (Locals.env {}) = some ty → store.fresh.Drew known := by
    rintro known ty ⟨⟩
  obtain ⟨entered, fresh, hparams, -, hreads, hnone⟩ := bindParams_reads _ hnodup hempty
  have hvars : List.Forall₂ entered.Reads (wrapper op).params.positional tys :=
    List.forall₂_iff_zip.mpr ⟨by simp [wrapper, hlength], fun hmem => hreads _ hmem⟩
  obtain ⟨ts, hexprs, htys⟩ := exprs_vars hvars hknown
  exact ⟨entered, fresh, ts, hparams, hexprs, htys, hnone⟩

-- An operator's wrapper gives what applying the operator to its parameters gives, or fails as
-- that does.
theorem wrapper_leaves {op : Prim} {tys : List Ty} {ty : Ty}
    {failed : SpecializeError → Store → Prop} (hlength : tys.length = op.arity)
    (hknown : .unknown ∉ tys)
    (happly : ∀ ts locals fresh, typesOf ts = tys →
      (outcome (applyPrim ctx op ts) locals { store with fresh }).Leaves
        (fun result _ => result.1.ty = ty ∧ result.2 = locals) failed) :
    (Session.outcome ((wrapper op).annotate ctx tys) store).Leaves
      (fun spec _ => spec.returnType = ty) failed := by
  obtain ⟨entered, fresh, ts, hparams, hexprs, htys, hnone⟩ :=
    wrapper_operands ctx store hlength hknown
  unfold Yields at hparams hexprs
  have hbody : (outcome (block ctx (wrapper op).body) entered { store with fresh }).Leaves
      (fun result _ => result.2.returnType = some ty) failed := by
    change (outcome (block ctx
      [.ret (.prim op ((wrapper op).params.positional.map Expr.var))]) _ _).Leaves _ _
    simp only [block, stmt, expr, outcome_bind, hexprs, Outcome.andThen_ok]
    refine .andThen (.andThen (happly ts entered fresh htys) ?_) fun _ _ h => h
    rintro ⟨t, _⟩ later ⟨hty, rfl⟩
    rw [outcome_bind, outcome_returns, hnone]
    exact congrArg some hty
  have hfinish : ∀ params,
      (outcome (finish ctx (wrapper op) tys params) entered { store with fresh }).Leaves
        (fun result _ => result.1.returnType = ty) failed := by
    intro params
    unfold finish
    rw [outcome_bind]
    refine hbody.andThen ?_
    rintro ⟨body, locals⟩ later hreturn
    rw [outcome_get_bind]
    change (withReturn body locals.returnType).2 = ty
    rw [show locals.returnType = some ty from hreturn]
    rfl
  rw [Comparison.outcome_annotate, func_eq, wrapper_bind hlength]
  change ((outcome (enter _ _ >>= _) _ _).andThen _).Leaves _ _
  simp only [enter, outcome_bind, hparams, Outcome.andThen_ok]
  exact .andThen (hfinish _) fun _ _ h => h

-- The wrapper gives what the operator gives, also for arrays, where it asks for itself on
-- scalars.
theorem wrapper_ranked {op : Prim} {kinds : List Scalar} {tys : List Ty}
    {failed : SpecializeError → Store → Prop} (hlength : kinds.length = op.arity)
    (hkinds : List.Forall₂ Ty.HasKind tys kinds)
    (hinvoke : tys.mapM Ty.scalar? = none → ∀ fresh,
      (Session.outcome (ctx.invoke (.closure ⟨wrapperName op, []⟩)
        ((op.inputs kinds).map Ty.scalar)) (withWrapper op { store with fresh })).Leaves
          (fun elem _ => elem = .scalar (op.result kinds)) failed) :
    (Session.outcome ((wrapper op).annotate ctx tys) store).Leaves
      (fun spec _ => spec.returnType = .ofRank (op.result kinds) (Ty.maxRank tys)) failed := by
  refine wrapper_leaves (hkinds.length_eq.trans hlength) (Ty.ne_unknown_of_hasKind hkinds) ?_
  rintro ts locals fresh rfl
  exact applyPrim_ranked hlength hkinds fun hnone => hinvoke hnone fresh

end Annotate

end RankPoly
