import RankPoly.Proofs.Flow.Expr
import RankPoly.Proofs.Steady

namespace RankPoly

theorem TypedExpr.Rests.child {env : NameMap Ty} {t child : TypedExpr} (h : t.Rests env)
    (hchild : child ∈ t.children) : child.Rests env :=
  fun _ _ hvar => h (.child hchild hvar)

namespace Annotate

open Session (withWrapper)

-- What annotations rely on to be repeated: a call that has been answered is answered
-- in the same way from then on.
structure Recalling (P : Store → Prop) (ctx : Context) : Prop where
  addWrapper : ∀ {store} op, P store → P (withWrapper op store)
  invoke : ∀ {store callee args ty later}, P store →
    Session.Yields (ctx.invoke callee args) store ty later → store.Grows later ∧ P later
  again : ∀ {store callee args ty later after}, P store →
    Session.Yields (ctx.invoke callee args) store ty later → P after → later.Grows after →
    ∃ after', Session.Yields (ctx.invoke callee args) after ty after'

theorem Recalling.recall {P : Store → Prop} {ctx : Context} (hctx : Recalling P ctx)
    {store later : Store} {callee : Ty} {args : List Ty} {ty : Ty} (hstore : P store)
    (h : Session.Yields (ctx.invoke callee args) store ty later) :
    store.Grows later ∧ P later ∧ ∀ {after}, P after → later.Grows after →
      ∃ after', Session.Yields (ctx.invoke callee args) after ty after' ∧ after.Grows after' ∧
        P after' := by
  obtain ⟨hgrows, hlater⟩ := hctx.invoke hstore h
  refine ⟨hgrows, hlater, fun hafter hgrows => ?_⟩
  obtain ⟨after', hagain⟩ := hctx.again hstore h hafter hgrows
  exact ⟨after', hagain, hctx.invoke hafter hagain⟩

-- Work that comes to a value once, and comes to it again from the final locals on,
-- whatever has become known about functions since. It leaves those locals alone then.
structure Recurs {α : Type} (P : Store → Prop) (final : Locals) (m : Annotate α) (a : α)
    (store later : Store) : Prop where
  grows : store.Grows later
  kept : P later
  again : ∀ {after}, P after → later.Grows after →
    ∃ after', Yields m final after a final after' ∧ after.Grows after' ∧ P after'

variable {α β : Type} {P : Store → Prop} {ctx : Context} {final locals locals' : Locals}
  {store between later : Store}

namespace Recurs

theorem pure (a : α) (hstore : P store) : Recurs P final (pure a) a store store where
  grows := .refl store
  kept := hstore
  again hafter _ := ⟨_, yields_pure.mpr ⟨rfl, rfl, rfl⟩, .refl _, hafter⟩

theorem bind {m : Annotate α} {k : α → Annotate β} {a : α} {b : β}
    (hm : Recurs P final m a store between)
    (hk : P between → Recurs P final (k a) b between later) :
    Recurs P final (m >>= k) b store later where
  grows := hm.grows.trans (hk hm.kept).grows
  kept := (hk hm.kept).kept
  again := by
    intro after hafter hgrows
    have hk := hk hm.kept
    obtain ⟨middle, hfirst, hgrows', hmiddle⟩ := hm.again hafter (hk.grows.trans hgrows)
    obtain ⟨after', hrest, hgrows'', hafter'⟩ := hk.again hmiddle (hgrows.trans hgrows')
    have hboth := yields_bind.mpr ⟨a, final, middle, hfirst, hrest⟩
    exact ⟨after', hboth, hgrows'.trans hgrows'', hafter'⟩

theorem of_steady {m : Annotate α} {a : α} (hm : Steady m)
    (h : Yields m locals store a locals' later) (hstore : P store) :
    Recurs P final m a store later := by
  rcases hm with ⟨b, rfl⟩ | ⟨error, -, rfl⟩
  · obtain ⟨rfl, -, rfl⟩ := yields_pure.mp h
    exact .pure b hstore
  · exact (yields_throw h).elim

theorem ofTy {result : Except TyError α} {a : α} (h : result = .ok a) (hstore : P store) :
    Recurs P final (ofTy result) a store store :=
  h ▸ .pure a hstore

theorem require {condition : Bool} {reason : ShapeError} (h : condition = true) (hstore : P store) :
    Recurs P final (require condition reason) () store store :=
  h ▸ .pure () hstore

theorem requireCallable {callee : TypedExpr} (h : callee.ty.isCallable = true) (hstore : P store) :
    Recurs P final (requireCallable callee) callee store store := by
  unfold Annotate.requireCallable
  rw [if_pos h]
  exact .pure callee hstore

theorem constAxis {operand : Option Expr} {given : Option Nat} (h : givenAxis operand = some given)
    (hstore : P store) : Recurs P final (constAxis operand) given store store := by
  rw [constAxis_eq h]
  exact .pure given hstore

theorem call (hctx : Recalling P ctx) (hstore : P store) {callee : Ty} {args : List Ty} {ty : Ty}
    (h : Session.Yields (ctx.invoke callee args) store ty later) :
    Recurs P final (liftM (ctx.invoke callee args)) ty store later := by
  obtain ⟨hgrows, hlater, hagain⟩ := hctx.recall hstore h
  refine ⟨hgrows, hlater, fun hafter hgrows => ?_⟩
  obtain ⟨after', hcall, hrest⟩ := hagain hafter hgrows
  exact ⟨after', yields_lift.mpr ⟨rfl, hcall⟩, hrest⟩

-- A function that has been registered once stays so.
theorem requireFunc {func : String} {m : Annotate α} {a : α}
    (hname : store.funcs.contains func = true) (hm : Recurs P final m a store later) :
    Recurs P final (do
      if !(← Session.isRegistered func) then throw (SpecializeError.unknownFunc func)
      m) a store later where
  grows := hm.grows
  kept := hm.kept
  again hafter hgrows := by
    obtain ⟨after', hagain, hrest⟩ := hm.again hafter hgrows
    exact ⟨after', yields_requireFunc.mpr ⟨(hm.grows.trans hgrows).contains hname, hagain⟩, hrest⟩

-- A variable that is read has the type that it has in the end, and the same local.
theorem read {name known : String} {ty : Ty} (hname : final.names.find? name = some known)
    (hty : final.env.find? known = some ty) (hne : ty ≠ .unknown) (hstore : P store) :
    Recurs P final (read name) (known, ty) store store where
  grows := .refl store
  kept := hstore
  again {after} hafter _ := by
    refine ⟨after, ?_, .refl _, hafter⟩
    unfold Yields
    rw [outcome_read]
    simp only [hname, hty]

end Recurs

section Apply

variable {callee t : TypedExpr} {axis : Option Nat} (hctx : Recalling P ctx)
include hctx

-- Applying something to what has been typed makes that its parts.
theorem applyPrim_recurs {op : Prim} {ts : List TypedExpr}
    (h : Yields (applyPrim ctx op ts) locals store t locals' later) :
    locals = locals' ∧ ts ⊆ t.children ∧
      (P store → Recurs P final (applyPrim ctx op ts) t store later) := by
  obtain ⟨hlength, rfl, ⟨kinds, hscalars, rfl, rfl⟩ | ⟨hscalar, kinds, elem, ty, hkinds, hcall, hty,
    rfl⟩⟩ := yields_applyPrim.mp h
  · refine ⟨rfl, List.Subset.refl _, fun hstore => ⟨.refl _, hstore, fun {after} hafter _ => ?_⟩⟩
    exact ⟨after, yields_applyPrim.mpr ⟨hlength, rfl, .inl ⟨kinds, hscalars, rfl, rfl⟩⟩, .refl _,
      hafter⟩
  · refine ⟨rfl, List.subset_append_left _ _, fun hstore => ?_⟩
    have hwrapper := Store.Grows.withWrapper op
    obtain ⟨hgrows, hkept, hagain⟩ := hctx.recall (hctx.addWrapper op hstore) hcall
    refine ⟨(hwrapper store).trans hgrows, hkept, fun {after} hafter hlater => ?_⟩
    obtain ⟨after', hcall, hgrows', hkept'⟩ :=
      hagain (hctx.addWrapper op hafter) (hlater.trans (hwrapper after))
    exact ⟨after', yields_applyPrim.mpr ⟨hlength, rfl,
      .inr ⟨hscalar, kinds, elem, ty, hkinds, hcall, hty, rfl⟩⟩, (hwrapper after).trans hgrows',
      hkept'⟩

theorem applyMap_recurs {ts : List TypedExpr}
    (h : Yields (applyMap ctx callee ts axis) locals store t locals' later) :
    locals = locals' ∧ t.children = ts ++ [callee] ∧
      (P store → Recurs P final (applyMap ctx callee ts axis) t store later) := by
  obtain ⟨recorded, nested, elem, ty, haxis, hrange, hnested, hcall, hty, rfl, rfl⟩ :=
    yields_applyMap.mp h
  refine ⟨rfl, rfl, fun hstore => ?_⟩
  obtain ⟨hgrows, hkept, hagain⟩ := hctx.recall hstore hcall
  refine ⟨hgrows, hkept, fun hafter hlater => ?_⟩
  obtain ⟨after', hcall, hrest⟩ := hagain hafter hlater
  exact ⟨after', yields_applyMap.mpr
    ⟨recorded, nested, elem, ty, haxis, hrange, hnested, hcall, hty, rfl, rfl⟩, hrest⟩

theorem Calls.recur {args callees tys : List Ty} (h : Calls ctx args callees store tys later)
    (hstore : P store) :
    store.Grows later ∧ P later ∧ ∀ {after}, P after → later.Grows after →
      ∃ after', Calls ctx args callees after tys after' ∧ after.Grows after' ∧ P after' := by
  induction h with
  | nil => exact ⟨.refl _, hstore, fun hafter _ => ⟨_, .nil, .refl _, hafter⟩⟩
  | cons hcall _ ih =>
      obtain ⟨hgrows, hkept, hagain⟩ := hctx.recall hstore hcall
      obtain ⟨hgrows', hkept', hagain'⟩ := ih hkept
      refine ⟨hgrows.trans hgrows', hkept', fun hafter hlater => ?_⟩
      obtain ⟨middle, hfirst, hbefore, hmiddle⟩ := hagain hafter (hgrows'.trans hlater)
      obtain ⟨after', hrest, hbetween, hafter'⟩ := hagain' hmiddle (hlater.trans hbefore)
      exact ⟨after', .cons hfirst hrest, hbefore.trans hbetween, hafter'⟩

theorem applyFold_recurs {kind : Fold} {arg : TypedExpr} {combiner : Option TypedExpr}
    (h : Yields (applyFold ctx kind callee combiner arg axis) locals store t locals' later) :
    locals = locals' ∧ t.children = arg :: callee :: combiner.toList ∧
      (P store → Recurs P final (applyFold ctx kind callee combiner arg axis) t store later) := by
  obtain ⟨recorded, acc, ty, haxis, hrange, hacc, hcalls, hty, rfl, rfl⟩ := yields_applyFold.mp h
  refine ⟨rfl, rfl, fun hstore => ?_⟩
  obtain ⟨hgrows, hkept, hagain⟩ := hcalls.recur hctx hstore
  refine ⟨hgrows, hkept, fun hafter hlater => ?_⟩
  obtain ⟨after', hcalls, hrest⟩ := hagain hafter hlater
  exact ⟨after', yields_applyFold.mpr
    ⟨recorded, acc, ty, haxis, hrange, hacc, hcalls, hty, rfl, rfl⟩, hrest⟩

theorem applyAllPairs_recurs {lhs rhs : TypedExpr}
    (h : Yields (applyAllPairs ctx callee lhs rhs axis) locals store t locals' later) :
    locals = locals' ∧ t.children = [lhs, rhs, callee] ∧
      (P store → Recurs P final (applyAllPairs ctx callee lhs rhs axis) t store later) := by
  obtain ⟨nested, elem, ty, hnested, hcall, hty, rfl, rfl⟩ := yields_applyAllPairs.mp h
  refine ⟨rfl, rfl, fun hstore => ?_⟩
  obtain ⟨hgrows, hkept, hagain⟩ := hctx.recall hstore hcall
  refine ⟨hgrows, hkept, fun hafter hlater => ?_⟩
  obtain ⟨after', hcall, hrest⟩ := hagain hafter hlater
  exact ⟨after', yields_applyAllPairs.mpr
    ⟨nested, elem, ty, hnested, hcall, hty, rfl, rfl⟩, hrest⟩

end Apply

mutual

-- An expression recurs if its variables have the types then that they have in the
-- end.
theorem expr_recurs (hctx : Recalling P ctx) : ∀ (e : Expr) {locals locals' : Locals}
    {store later : Store} {t : TypedExpr}, P store → locals.naming ≤ final.naming →
      Yields (expr ctx e) locals store t locals' later → t.Rests final.env →
      locals = locals' ∧ Recurs P final (expr ctx e) t store later
  | .var name, locals, locals', store, later, t, hstore, hnaming, h, hrests => by
      obtain ⟨known, ty, hknown, -, hne, rfl, rfl, rfl⟩ := yields_var h
      unfold expr
      exact ⟨rfl, .bind (.read (hnaming _ _ hknown) (hrests .self) hne hstore) fun hstore =>
        .pure _ hstore⟩
  | .const value, locals, locals', store, later, t, hstore, hnaming, h, hrests => by
      obtain ⟨rfl, rfl, rfl⟩ := yields_const h
      unfold expr
      exact ⟨rfl, .pure _ hstore⟩
  | .tuple es, locals, locals', store, later, t, hstore, hnaming, h, hrests => by
      obtain ⟨ts, hexprs, rfl⟩ := yields_tuple h
      obtain ⟨rfl, hes⟩ := exprs_recur hctx es hstore hnaming hexprs fun t ht => hrests.child ht
      unfold expr
      exact ⟨rfl, .bind hes (.pure _)⟩
  | .array es, locals, locals', store, later, t, hstore, hnaming, h, hrests => by
      obtain ⟨ts, elem, ty, hsome, hexprs, helem, hty, rfl⟩ := yields_array h
      obtain ⟨rfl, hes⟩ := exprs_recur hctx es hstore hnaming hexprs fun t ht => hrests.child ht
      unfold expr
      exact ⟨rfl, .bind (.require hsome hstore) fun _ => .bind hes fun hstore =>
        .bind (.ofTy helem hstore) fun hstore => .bind (.ofTy hty hstore) (.pure _)⟩
  | .index e i, locals, locals', store, later, t, hstore, hnaming, h, hrests => by
      obtain ⟨value, _, _, hexpr, h⟩ := yields_index h
      unfold expr
      rcases h with ⟨elems, hty, hproject⟩ | ⟨hty, index, ty, hindex, htype, rfl⟩
      · obtain ⟨index, slot, ty, rfl, rfl, -, -, rfl, rfl⟩ := yields_projectFrom hproject
        obtain ⟨rfl, he⟩ :=
          expr_recurs hctx e hstore hnaming hexpr (hrests.child (List.mem_singleton.mpr rfl))
        refine ⟨rfl, .bind he fun hstore => ?_⟩
        rw [hty]
        exact .of_steady (.projectFrom _ _ _) hproject hstore
      · have hparts : ∀ part ∈ [value, index], part.Rests final.env := fun _ => hrests.child
        simp only [List.forall_mem_cons] at hparts
        obtain ⟨rfl, he⟩ := expr_recurs hctx e hstore hnaming hexpr hparts.1
        obtain ⟨rfl, hi⟩ := expr_recurs hctx i he.kept hnaming hindex hparts.2.1
        refine ⟨rfl, .bind he fun _ => ?_⟩
        split
        · exact (hty _ ‹_›).elim
        · exact .bind hi fun hstore => .bind (.ofTy htype hstore) fun hstore => .pure _ hstore
  | .slice a b c, locals, locals', store, later, t, hstore, hnaming, h, hrests => by
      obtain ⟨start, _, _, stop, _, _, step, hstart, hstop, hstep, rfl⟩ := yields_slice h
      have hparts : ∀ part ∈ [start, stop, step], part.Rests final.env := fun _ => hrests.child
      simp only [List.forall_mem_cons] at hparts
      obtain ⟨rfl, ha⟩ := expr_recurs hctx a hstore hnaming hstart hparts.1
      obtain ⟨rfl, hb⟩ := expr_recurs hctx b ha.kept hnaming hstop hparts.2.1
      obtain ⟨rfl, hc⟩ := expr_recurs hctx c hb.kept hnaming hstep hparts.2.2.1
      unfold expr
      exact ⟨rfl, .bind ha fun _ => .bind hb fun _ => .bind hc fun hstore => .pure _ hstore⟩
  | .attribute e name, locals, locals', store, later, t, hstore, hnaming, h, hrests => by
      obtain ⟨value, ty, hexpr, hfield, rfl⟩ := yields_attribute h
      obtain ⟨rfl, he⟩ :=
        expr_recurs hctx e hstore hnaming hexpr (hrests.child (List.mem_singleton.mpr rfl))
      unfold expr
      exact ⟨rfl, .bind he fun hstore => .bind (.of_steady (.fieldType _ _) hfield hstore)
        fun hstore => .pure _ hstore⟩
  | .prim op es, locals, locals', store, later, t, hstore, hnaming, h, hrests => by
      obtain ⟨ts, _, _, hexprs, happly⟩ := yields_prim h
      obtain ⟨rfl, hparts, hlast⟩ := applyPrim_recurs hctx happly
      obtain ⟨rfl, hes⟩ :=
        exprs_recur hctx es hstore hnaming hexprs fun t ht => hrests.child (hparts ht)
      unfold expr
      exact ⟨rfl, .bind hes hlast⟩
  | .closure func es, locals, locals', store, later, t, hstore, hnaming, h, hrests => by
      obtain ⟨ts, hname, hexprs, rfl⟩ := yields_closure h
      obtain ⟨rfl, hes⟩ := exprs_recur hctx es hstore hnaming hexprs fun t ht => hrests.child ht
      unfold expr
      exact ⟨rfl, .requireFunc hname (.bind hes (.pure _))⟩
  | .invoke f es, locals, locals', store, later, t, hstore, hnaming, h, hrests => by
      obtain ⟨callee, _, _, ts, _, _, ty, hexpr, hcallable, hexprs, hcall, rfl⟩ := yields_invoke h
      obtain ⟨rfl, hanswered⟩ := yields_lift.mp hcall
      have hparts : ∀ part ∈ ts ++ [callee], part.Rests final.env := fun _ => hrests.child
      rw [List.forall_mem_append, List.forall_mem_singleton] at hparts
      obtain ⟨rfl, hf⟩ := expr_recurs hctx f hstore hnaming hexpr hparts.2
      obtain ⟨rfl, hes⟩ := exprs_recur hctx es hf.kept hnaming hexprs hparts.1
      unfold expr
      exact ⟨rfl, .bind hf fun hstore => .bind (.requireCallable hcallable hstore) fun _ =>
        .bind hes fun hstore => .bind (.call hctx hstore hanswered) (.pure _)⟩
  | .map f es operand, locals, locals', store, later, t, hstore, hnaming, h, hrests => by
      obtain ⟨axis, callee, _, _, ts, _, _, haxis, hexpr, hcallable, hexprs, happly⟩ :=
        yields_map.mp h
      obtain ⟨rfl, hchildren, hlast⟩ := applyMap_recurs hctx happly
      have hparts : ∀ part ∈ ts ++ [callee], part.Rests final.env :=
        fun _ hpart => hrests.child (hchildren ▸ hpart)
      rw [List.forall_mem_append, List.forall_mem_singleton] at hparts
      obtain ⟨rfl, hf⟩ := expr_recurs hctx f hstore hnaming hexpr hparts.2
      obtain ⟨rfl, hes⟩ := exprs_recur hctx es hf.kept hnaming hexprs hparts.1
      unfold expr
      exact ⟨rfl, .bind (.constAxis haxis hstore) fun _ => .bind hf fun hstore =>
        .bind (.requireCallable hcallable hstore) fun _ => .bind hes hlast⟩
  | .fold kind f [e] operand none c, locals, locals', store, later, t, hstore, hnaming, h,
      hrests => by
      obtain ⟨axis, callee, _, _, c', _, _, x, _, _, haxis, hexpr, hcallable, hcombiner, harg,
        happly⟩ := yields_fold.mp h
      obtain ⟨rfl, hchildren, hlast⟩ := applyFold_recurs hctx happly
      have hparts : ∀ part ∈ x :: callee :: c'.toList, part.Rests final.env :=
        fun _ hpart => hrests.child (hchildren ▸ hpart)
      simp only [List.forall_mem_cons, Option.mem_toList] at hparts
      obtain ⟨rfl, hf⟩ := expr_recurs hctx f hstore hnaming hexpr hparts.2.1
      obtain ⟨rfl, hc⟩ := optionalCallee_recurs hctx c hf.kept hnaming hcombiner hparts.2.2
      obtain ⟨rfl, he⟩ := expr_recurs hctx e hc.kept hnaming harg hparts.1
      unfold expr
      exact ⟨rfl, .bind (.constAxis haxis hstore) fun _ => .bind hf fun hstore =>
        .bind (.requireCallable hcallable hstore) fun _ => .bind hc fun _ => .bind he hlast⟩
  | .fold _ _ _ _ (some _) _, _, _, _, _, _, _, _, h, _
  | .fold _ _ [] _ none _, _, _, _, _, _, _, _, h, _
  | .fold _ _ (_ :: _ :: _) _ none _, _, _, _, _, _, _, _, h, _ => by
      obtain ⟨⟨⟩, _, ⟨⟩⟩ := fold_of_yields h
  | .allPairs f [a, b] operand, locals, locals', store, later, t, hstore, hnaming, h, hrests => by
      obtain ⟨axis, callee, _, _, x, _, _, y, _, _, haxis, hexpr, hcallable, hleft, hright,
        happly⟩ := yields_allPairs.mp h
      obtain ⟨rfl, hchildren, hlast⟩ := applyAllPairs_recurs hctx happly
      have hparts : ∀ part ∈ [x, y, callee], part.Rests final.env :=
        fun _ hpart => hrests.child (hchildren ▸ hpart)
      simp only [List.forall_mem_cons] at hparts
      obtain ⟨rfl, hf⟩ := expr_recurs hctx f hstore hnaming hexpr hparts.2.2.1
      obtain ⟨rfl, ha⟩ := expr_recurs hctx a hf.kept hnaming hleft hparts.1
      obtain ⟨rfl, hb⟩ := expr_recurs hctx b ha.kept hnaming hright hparts.2.1
      unfold expr
      exact ⟨rfl, .bind (.constAxis haxis hstore) fun _ => .bind hf fun hstore =>
        .bind (.requireCallable hcallable hstore) fun _ => .bind ha fun _ => .bind hb hlast⟩
  | .allPairs _ [] _, _, _, _, _, _, _, _, h, _
  | .allPairs _ [_] _, _, _, _, _, _, _, _, h, _
  | .allPairs _ (_ :: _ :: _ :: _) _, _, _, _, _, _, _, _, h, _ => by
      obtain ⟨_, _, ⟨⟩⟩ := pair_of_yields h
  termination_by structural e => e

theorem exprs_recur (hctx : Recalling P ctx) : ∀ (es : List Expr) {locals locals' : Locals}
    {store later : Store} {ts : List TypedExpr}, P store → locals.naming ≤ final.naming →
      Yields (exprs ctx es) locals store ts locals' later → (∀ t ∈ ts, t.Rests final.env) →
      locals = locals' ∧ Recurs P final (exprs ctx es) ts store later
  | [], locals, locals', store, later, ts, hstore, hnaming, h, hrests => by
      obtain ⟨rfl, rfl, rfl⟩ := yields_exprs_nil h
      unfold exprs
      exact ⟨rfl, .pure _ hstore⟩
  | e :: es, locals, locals', store, later, ts, hstore, hnaming, h, hrests => by
      obtain ⟨t, _, _, ts, hexpr, hexprs, rfl⟩ := yields_exprs_cons h
      obtain ⟨hrest, hrests⟩ := List.forall_mem_cons.mp hrests
      obtain ⟨rfl, he⟩ := expr_recurs hctx e hstore hnaming hexpr hrest
      obtain ⟨rfl, hes⟩ := exprs_recur hctx es he.kept hnaming hexprs hrests
      unfold exprs
      exact ⟨rfl, .bind he fun _ => .bind hes (.pure _)⟩
  termination_by structural es => es

theorem optionalCallee_recurs (hctx : Recalling P ctx) : ∀ (c : Option Expr)
    {locals locals' : Locals} {store later : Store} {c' : Option TypedExpr}, P store →
      locals.naming ≤ final.naming → Yields (optionalCallee ctx c) locals store c' locals' later →
      (∀ t ∈ c', t.Rests final.env) →
      locals = locals' ∧ Recurs P final (optionalCallee ctx c) c' store later
  | none, locals, locals', store, later, c', hstore, hnaming, h, hrests => by
      obtain ⟨rfl, rfl, rfl⟩ := yields_optionalCallee_none h
      unfold optionalCallee
      exact ⟨rfl, .pure _ hstore⟩
  | some c, locals, locals', store, later, c', hstore, hnaming, h, hrests => by
      obtain ⟨callee, hexpr, hcallable, rfl⟩ := yields_optionalCallee_some h
      obtain ⟨rfl, hc⟩ := expr_recurs hctx c hstore hnaming hexpr (hrests _ rfl)
      unfold optionalCallee
      exact ⟨rfl, .bind hc fun hstore => .bind (.requireCallable hcallable hstore) (.pure _)⟩
  termination_by structural c => c

end

end Annotate

end RankPoly
