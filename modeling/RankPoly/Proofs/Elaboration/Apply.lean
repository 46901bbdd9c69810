import RankPoly.Proofs.Steps.Apply
import RankPoly.Proofs.Ty.Rank

namespace RankPoly

theorem Store.Grows.withWrapper (op : Prim) (store : Store) :
    store.Grows (Session.withWrapper op store) := by
  unfold Session.withWrapper
  split
  · exact .refl store
  · rename_i hname
    exact .insert (by simpa [NameMap.contains] using hname)

namespace Annotate

open Session (wrapper wrapperName withWrapper)

-- What annotations rely on in their surroundings, where `P` holds of stores:
-- calls are answered by what is kept, and an operator's wrapper, called with what
-- the operator takes, gives what the operator gives.
structure Answering (P : Store → Prop) (ctx : Context) : Prop where
  fresh : ∀ {store} name, P store → P { store with fresh := (store.fresh.refresh name).2 }
  addWrapper : ∀ {store} op, P store → P (withWrapper op store)
  invoke : ∀ {store callee args ty later}, P store →
    Session.Yields (ctx.invoke callee args) store ty later →
    store.Grows later ∧ P later ∧ answer later.result? callee args = some ty
  wrapped : ∀ {store op kinds elem}, P store →
    store.funcs.find? (wrapperName op) = some (wrapper op) → kinds.length = op.arity →
    answer store.result? (.closure ⟨wrapperName op, []⟩) ((op.inputs kinds).map Ty.scalar) =
      some elem → elem = .scalar (op.result kinds)

-- A run that leaves the locals as they are.
structure Advances (P : Store → Prop) (locals : Locals) (store : Store) (locals' : Locals)
    (later : Store) : Prop where
  locals_eq : locals = locals'
  grows : store.Grows later
  kept : P later

variable {P : Store → Prop} {ctx : Context} {locals locals' : Locals} {store later : Store}
  {naming : Naming}

theorem Advances.refl (h : P store) : Advances P locals store locals store :=
  ⟨rfl, .refl store, h⟩

theorem Advances.trans {middle : Locals} {between : Store}
    (h : Advances P locals store middle between) (h' : Advances P middle between locals' later) :
    Advances P locals store locals' later :=
  ⟨h.locals_eq.trans h'.locals_eq, h.grows.trans h'.grows, h'.kept⟩

section Carry

variable {middle : Locals} {between : Store}

-- What has been typed stays so, however the run goes on.
theorem Advances.carry (h : Advances P locals store middle between) {e : Expr} {t : TypedExpr}
    (he : e.Elaborates (NodeTyped store) naming t) : e.Elaborates (NodeTyped between) naming t :=
  he.imp (NodeTyped.mono h.grows) le_rfl _ _

theorem Advances.carryList (h : Advances P locals store middle between) {es : List Expr}
    {ts : List TypedExpr} (hes : List.Forall₂ (Expr.Elaborates (NodeTyped store) naming) es ts) :
    List.Forall₂ (Expr.Elaborates (NodeTyped between) naming) es ts :=
  Expr.Elaborates.impList (NodeTyped.mono h.grows) le_rfl _ _ hes

theorem Advances.carryOption (h : Advances P locals store middle between) {c : Option Expr}
    {c' : Option TypedExpr} (hc : Option.Rel (Expr.Elaborates (NodeTyped store) naming) c c') :
    Option.Rel (Expr.Elaborates (NodeTyped between) naming) c c' :=
  Expr.Elaborates.impOption (NodeTyped.mono h.grows) le_rfl _ _ hc

end Carry

theorem Answering.call (hctx : Answering P ctx) (hstore : P store) {callee : Ty} {args : List Ty}
    {ty : Ty} (h : Yields (liftM (ctx.invoke callee args)) locals store ty locals' later) :
    Advances P locals store locals' later ∧ answer later.result? callee args = some ty := by
  obtain ⟨rfl, hinvoke⟩ := yields_lift.mp h
  obtain ⟨hgrows, hkept, hanswer⟩ := hctx.invoke hstore hinvoke
  exact ⟨⟨rfl, hgrows, hkept⟩, hanswer⟩

theorem mapM_scalar?_eq : ∀ {tys : List Ty} {kinds : List Scalar},
    tys.mapM Ty.scalar? = some kinds → tys = kinds.map Ty.scalar
  | [], kinds, h => by
      cases h
      rfl
  | ty :: tys, kinds, h => by
      rw [List.mapM_cons] at h
      obtain ⟨kind, hkind, h⟩ := Option.bind_eq_some_iff.mp h
      obtain ⟨rest, hrest, h⟩ := Option.bind_eq_some_iff.mp h
      cases h
      cases ty <;> simp only [Ty.scalar?, Option.some.injEq, reduceCtorEq] at hkind
      rw [mapM_scalar?_eq hrest, hkind]
      rfl

theorem mapM_scalar?_map (kinds : List Scalar) :
    (kinds.map Ty.scalar).mapM Ty.scalar? = some kinds := by
  induction kinds with
  | nil => rfl
  | cons kind kinds ih =>
      rw [List.map_cons, List.mapM_cons, ih]
      rfl

theorem mapM_elementKind?_eq {tys : List Ty} {kinds : List Scalar}
    (h : tys.mapM elementKind? = some kinds) : Ty.elementTypes tys = kinds.map Ty.scalar := by
  refine mapM_scalar?_eq ?_
  rw [Ty.elementTypes, List.mapM_map]
  exact h

theorem length_typesOf (ts : List TypedExpr) : (typesOf ts).length = ts.length :=
  List.length_map _

-- Operands that have kinds, but are not all scalars, have an array among them.
theorem exists_isArray {tys : List Ty} {kinds : List Scalar}
    (hkinds : tys.mapM elementKind? = some kinds) (hscalar : tys.mapM Ty.scalar? = none) :
    ∃ ty ∈ tys, ty.isArray = true := by
  induction tys generalizing kinds with
  | nil => cases hscalar
  | cons ty tys ih =>
      rw [List.mapM_cons] at hkinds hscalar
      obtain ⟨kind, hkind, hkinds⟩ := Option.bind_eq_some_iff.mp hkinds
      obtain ⟨rest, hrest, -⟩ := Option.bind_eq_some_iff.mp hkinds
      cases ty with
      | array elem rank => exact ⟨_, List.mem_cons_self, rfl⟩
      | scalar elem =>
          have htail : tys.mapM Ty.scalar? = none := by
            cases htail : tys.mapM Ty.scalar? with
            | none => rfl
            | some kinds =>
                rw [htail] at hscalar
                cases hscalar
          obtain ⟨ty, hmem, harray⟩ := ih hrest htail
          exact ⟨ty, List.mem_cons_of_mem _ hmem, harray⟩
      | _ => cases hkind

-- An operator on scalars stays one, and any other becomes a map.
theorem applyPrim_elaborates (hctx : Answering P ctx) (hstore : P store) {op : Prim}
    {es : List Expr} {ts : List TypedExpr} {t : TypedExpr}
    (hes : List.Forall₂ (Expr.Elaborates (NodeTyped store) naming) es ts)
    (h : Yields (applyPrim ctx op ts) locals store t locals' later) :
    Advances P locals store locals' later ∧
      (Expr.prim op es).Elaborates (NodeTyped later) naming t := by
  obtain ⟨harity, rfl, ⟨kinds, hscalars, rfl, rfl⟩ | ⟨hscalar, kinds, elem, ty, hkinds, hcall, hrank,
    rfl⟩⟩ := yields_applyPrim.mp h
  · have htys := mapM_scalar?_eq hscalars
    refine ⟨.refl hstore, .prim hes ?_ (.prim harity htys)⟩
    rw [htys]
    simp [Ty.isScalar]
  · obtain ⟨hgrows, hlater, helem⟩ := hctx.invoke (hctx.addWrapper op hstore) hcall
    have hwhole : Advances P locals store locals later :=
      ⟨rfl, (Store.Grows.withWrapper op store).trans hgrows, hlater⟩
    have hwrapper := hgrows.contains (Session.contains_withWrapper op store)
    obtain ⟨func, hfunc⟩ := NameMap.contains_iff.mp hwrapper
    have htys := mapM_elementKind?_eq hkinds
    have hlength : kinds.length = op.arity := by
      have hsame := congrArg List.length htys
      rw [Ty.elementTypes, List.length_map, List.length_map, length_typesOf, harity] at hsame
      exact hsame.symm
    refine ⟨hwhole, .lift (hwhole.carryList hes) (exists_isArray hkinds hscalar)
      (.closure hwrapper) (.lift harity htys hfunc helem hrank ?_)⟩
    rintro rfl
    cases hctx.wrapped hlater hfunc hlength helem
    rw [Ty.increaseRank_scalar] at hrank
    exact (Except.ok.inj hrank).symm

theorem applyMap_elaborates (hctx : Answering P ctx) (hstore : P store) {f : Expr}
    {g t : TypedExpr} {es : List Expr} {ts : List TypedExpr} {operand : Option Expr}
    {axis : Option Nat} (hf : f.Elaborates (NodeTyped store) naming g)
    (hes : List.Forall₂ (Expr.Elaborates (NodeTyped store) naming) es ts)
    (haxis : givenAxis operand = some axis)
    (h : Yields (applyMap ctx g ts axis) locals store t locals' later) :
    Advances P locals store locals' later ∧
      (Expr.map f es operand).Elaborates (NodeTyped later) naming t := by
  obtain ⟨axis, nested, elem, ty, rfl, hrange, hnested, hcall, hty, rfl, rfl⟩ :=
    yields_applyMap.mp h
  obtain ⟨hgrows, hlater, helem⟩ := hctx.invoke hstore hcall
  have hadvances : Advances P locals store locals later := ⟨rfl, hgrows, hlater⟩
  exact ⟨hadvances, .map (hadvances.carry hf) (hadvances.carryList hes) haxis
    (.map (recordedAxis_lt hrange) hnested helem hty)⟩

theorem Calls.answers (hctx : Answering P ctx) {args callees tys : List Ty}
    (h : Calls ctx args callees store tys later) (hstore : P store) :
    store.Grows later ∧ P later ∧
      List.Forall₂ (fun callee ty => answer later.result? callee args = some ty) callees tys := by
  induction h with
  | nil => exact ⟨.refl _, hstore, .nil⟩
  | cons hcall _ ih =>
      obtain ⟨hgrows, hkept, hanswer⟩ := hctx.invoke hstore hcall
      obtain ⟨hgrows', hkept', hanswers⟩ := ih hkept
      exact ⟨hgrows.trans hgrows', hkept', .cons (hgrows'.answer hanswer) hanswers⟩

-- A fold is typed once what it folds with keeps the type of what has been folded.
theorem foldType_typed (e : Expr) {kind : Fold} {g x : TypedExpr} {combiner : Option TypedExpr}
    {axis : Option Nat} {acc ty : Ty} (hrange : ∀ i ∈ axis, i < x.ty.rank)
    (hacc : x.ty.lowerRank (axisCount axis) = .ok acc)
    (hanswers : ∀ f ∈ g :: combiner.toList, answer store.result? f.ty [acc, acc] = some acc)
    (hty : foldType kind acc (axisCount axis) = .ok ty) :
    NodeTyped store e (.fold kind g x axis combiner ty) := by
  cases kind with
  | reduce =>
      cases hty
      exact .reduce hrange hacc hanswers
  | scan => exact .scan hrange hacc hanswers hty

theorem applyFold_elaborates (hctx : Answering P ctx) (hstore : P store) {kind : Fold}
    {f e : Expr} {g x t : TypedExpr} {operand combiner : Option Expr}
    {combiner' : Option TypedExpr} {axis : Option Nat}
    (hf : f.Elaborates (NodeTyped store) naming g) (he : e.Elaborates (NodeTyped store) naming x)
    (hcombiner : Option.Rel (Expr.Elaborates (NodeTyped store) naming) combiner combiner')
    (haxis : givenAxis operand = some axis)
    (h : Yields (applyFold ctx kind g combiner' x axis) locals store t locals' later) :
    Advances P locals store locals' later ∧
      (Expr.fold kind f [e] operand none combiner).Elaborates (NodeTyped later) naming t := by
  obtain ⟨axis, acc, ty, rfl, hrange, hacc, hcalls, hty, rfl, rfl⟩ := yields_applyFold.mp h
  obtain ⟨hgrows, hlater, hanswers⟩ := hcalls.answers hctx hstore
  have hadvances : Advances P locals store locals later := ⟨rfl, hgrows, hlater⟩
  refine ⟨hadvances, .fold (hadvances.carry hf) (hadvances.carry he)
    (hadvances.carryOption hcombiner) haxis ?_⟩
  simp only [typesOf, List.forall₂_map_left_iff, List.forall₂_map_right_iff,
    List.forall₂_same] at hanswers
  exact foldType_typed _ (recordedAxis_lt hrange) hacc hanswers hty

theorem applyAllPairs_elaborates (hctx : Answering P ctx) (hstore : P store) {f a b : Expr}
    {g x y t : TypedExpr} {operand : Option Expr} {axis : Option Nat}
    (hf : f.Elaborates (NodeTyped store) naming g) (ha : a.Elaborates (NodeTyped store) naming x)
    (hb : b.Elaborates (NodeTyped store) naming y) (haxis : givenAxis operand = some axis)
    (h : Yields (applyAllPairs ctx g x y axis) locals store t locals' later) :
    Advances P locals store locals' later ∧
      (Expr.allPairs f [a, b] operand).Elaborates (NodeTyped later) naming t := by
  obtain ⟨nested, elem, ty, hnested, hcall, hty, rfl, rfl⟩ := yields_applyAllPairs.mp h
  obtain ⟨hgrows, hlater, helem⟩ := hctx.invoke hstore hcall
  have hadvances : Advances P locals store locals later := ⟨rfl, hgrows, hlater⟩
  exact ⟨hadvances, .allPairs (hadvances.carry hf) (hadvances.carry ha) (hadvances.carry hb) haxis
    (.allPairs haxis hnested helem hty)⟩

end Annotate

end RankPoly
