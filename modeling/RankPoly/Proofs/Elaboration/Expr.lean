import RankPoly.Proofs.Elaboration.Apply
import RankPoly.Proofs.Steps.Expr

namespace RankPoly.Annotate

variable {P : Store → Prop} {ctx : Context}

mutual

-- An expression that gets a type elaborates, and each of its nodes has the type
-- that its parts give it.
theorem expr_elaborates (hctx : Answering P ctx) : ∀ (e : Expr) {locals locals' : Locals}
    {store later : Store} {t : TypedExpr}, P store →
      Yields (expr ctx e) locals store t locals' later →
      Advances P locals store locals' later ∧
        e.Elaborates (NodeTyped later) locals.naming t
  | .var name, locals, locals', store, later, t, hstore, h => by
      obtain ⟨known, ty, hknown, -, -, rfl, rfl, rfl⟩ := yields_var h
      exact ⟨.refl hstore, .var hknown .var⟩
  | .const value, locals, locals', store, later, t, hstore, h => by
      obtain ⟨rfl, rfl, rfl⟩ := yields_const h
      exact ⟨.refl hstore, .const .const⟩
  | .tuple es, locals, locals', store, later, t, hstore, h => by
      obtain ⟨ts, hexprs, rfl⟩ := yields_tuple h
      obtain ⟨hadvances, hes⟩ := exprs_elaborate hctx es hstore hexprs
      exact ⟨hadvances, .tuple hes .tuple⟩
  | .array es, locals, locals', store, later, t, hstore, h => by
      obtain ⟨ts, elem, ty, -, hexprs, helem, hty, rfl⟩ := yields_array h
      obtain ⟨hadvances, hes⟩ := exprs_elaborate hctx es hstore hexprs
      exact ⟨hadvances, .array hes (.array helem hty)⟩
  | .index e i, locals, locals', store, later, t, hstore, h => by
      obtain ⟨value, middle, between, hexpr, h⟩ := yields_index h
      obtain ⟨hadvances, he⟩ := expr_elaborates hctx e hstore hexpr
      rcases h with ⟨elems, hty, hproject⟩ | ⟨htuple, index, ty, hindex, hty, rfl⟩
      · obtain ⟨index, slot, ty, rfl, rfl, hslot, hfound, rfl, rfl⟩ := yields_projectFrom hproject
        obtain ⟨hlt, hslot⟩ := slot?_eq hslot
        exact ⟨hadvances, .project he hty hlt hslot (.project hty hfound)⟩
      · obtain ⟨hadvances', hi⟩ := expr_elaborates hctx i hadvances.kept hindex
        cases hadvances.locals_eq
        have he := hadvances'.carry he
        exact ⟨hadvances.trans hadvances', .index he hi htuple (.index hty)⟩
  | .slice a b c, locals, locals', store, later, t, hstore, h => by
      obtain ⟨start, _, _, stop, _, _, step, hstart, hstop, hstep, rfl⟩ := yields_slice h
      obtain ⟨hadvances, ha⟩ := expr_elaborates hctx a hstore hstart
      cases hadvances.locals_eq
      obtain ⟨hadvances', hb⟩ := expr_elaborates hctx b hadvances.kept hstop
      cases hadvances'.locals_eq
      obtain ⟨hadvances'', hc⟩ := expr_elaborates hctx c hadvances'.kept hstep
      have ha := hadvances''.carry (hadvances'.carry ha)
      have hb := hadvances''.carry hb
      exact ⟨(hadvances.trans hadvances').trans hadvances'', .slice ha hb hc .slice⟩
  | .attribute e name, locals, locals', store, later, t, hstore, h => by
      obtain ⟨value, ty, hexpr, hfield, rfl⟩ := yields_attribute h
      obtain ⟨hadvances, he⟩ := expr_elaborates hctx e hstore hexpr
      obtain ⟨⟨fields, hfields, hty⟩, -, -⟩ := yields_fieldType hfield
      exact ⟨hadvances, .attribute he (.field hfields hty)⟩
  | .prim op es, locals, locals', store, later, t, hstore, h => by
      obtain ⟨ts, _, _, hexprs, happly⟩ := yields_prim h
      obtain ⟨hadvances, hes⟩ := exprs_elaborate hctx es hstore hexprs
      obtain ⟨hadvances', ht⟩ := applyPrim_elaborates hctx hadvances.kept hes happly
      exact ⟨hadvances.trans hadvances', ht⟩
  | .closure func es, locals, locals', store, later, t, hstore, h => by
      obtain ⟨ts, hfunc, hexprs, rfl⟩ := yields_closure h
      obtain ⟨hadvances, hes⟩ := exprs_elaborate hctx es hstore hexprs
      exact ⟨hadvances, .closure hes (.closure (hadvances.grows.contains hfunc))⟩
  | .invoke f es, locals, locals', store, later, t, hstore, h => by
      obtain ⟨callee, _, _, ts, _, _, ty, hexpr, -, hexprs, hcall, rfl⟩ := yields_invoke h
      obtain ⟨hadvances, hf⟩ := expr_elaborates hctx f hstore hexpr
      cases hadvances.locals_eq
      obtain ⟨hadvances', hes⟩ := exprs_elaborate hctx es hadvances.kept hexprs
      obtain ⟨hadvances'', hanswer⟩ := hctx.call hadvances'.kept hcall
      have hf := hadvances''.carry (hadvances'.carry hf)
      have hes := hadvances''.carryList hes
      exact ⟨(hadvances.trans hadvances').trans hadvances'', .invoke hf hes (.invoke hanswer)⟩
  | .map f es operand, locals, locals', store, later, t, hstore, h => by
      obtain ⟨axis, callee, _, _, ts, _, _, haxis, hexpr, -, hexprs, happly⟩ := yields_map.mp h
      obtain ⟨hadvances, hf⟩ := expr_elaborates hctx f hstore hexpr
      cases hadvances.locals_eq
      obtain ⟨hadvances', hes⟩ := exprs_elaborate hctx es hadvances.kept hexprs
      have hf := hadvances'.carry hf
      obtain ⟨hadvances'', ht⟩ := applyMap_elaborates hctx hadvances'.kept hf hes haxis happly
      exact ⟨(hadvances.trans hadvances').trans hadvances'', ht⟩
  | .fold kind f [e] operand none c, locals, locals', store, later, t, hstore, h => by
      obtain ⟨axis, callee, _, _, c', _, _, x, _, _, haxis, hexpr, -, hcombiner, harg, happly⟩ :=
        yields_fold.mp h
      obtain ⟨hadvances, hf⟩ := expr_elaborates hctx f hstore hexpr
      cases hadvances.locals_eq
      obtain ⟨hadvances', hc⟩ := optionalCallee_elaborates hctx c hadvances.kept hcombiner
      cases hadvances'.locals_eq
      obtain ⟨hadvances'', he⟩ := expr_elaborates hctx e hadvances'.kept harg
      have hf := hadvances''.carry (hadvances'.carry hf)
      have hc := hadvances''.carryOption hc
      obtain ⟨hlast, ht⟩ := applyFold_elaborates hctx hadvances''.kept hf he hc haxis happly
      exact ⟨((hadvances.trans hadvances').trans hadvances'').trans hlast, ht⟩
  | .fold _ _ _ _ (some _) _, _, _, _, _, _, _, h
  | .fold _ _ [] _ none _, _, _, _, _, _, _, h
  | .fold _ _ (_ :: _ :: _) _ none _, _, _, _, _, _, _, h => by
      obtain ⟨⟨⟩, _, ⟨⟩⟩ := fold_of_yields h
  | .allPairs f [a, b] operand, locals, locals', store, later, t, hstore, h => by
      obtain ⟨axis, callee, _, _, x, _, _, y, _, _, haxis, hexpr, -, hleft, hright, happly⟩ :=
        yields_allPairs.mp h
      obtain ⟨hadvances, hf⟩ := expr_elaborates hctx f hstore hexpr
      cases hadvances.locals_eq
      obtain ⟨hadvances', ha⟩ := expr_elaborates hctx a hadvances.kept hleft
      cases hadvances'.locals_eq
      obtain ⟨hadvances'', hb⟩ := expr_elaborates hctx b hadvances'.kept hright
      have hf := hadvances''.carry (hadvances'.carry hf)
      have ha := hadvances''.carry ha
      obtain ⟨hlast, ht⟩ := applyAllPairs_elaborates hctx hadvances''.kept hf ha hb haxis happly
      exact ⟨((hadvances.trans hadvances').trans hadvances'').trans hlast, ht⟩
  | .allPairs _ [] _, _, _, _, _, _, _, h
  | .allPairs _ [_] _, _, _, _, _, _, _, h
  | .allPairs _ (_ :: _ :: _ :: _) _, _, _, _, _, _, _, h => by
      obtain ⟨_, _, ⟨⟩⟩ := pair_of_yields h
  termination_by structural e => e

theorem exprs_elaborate (hctx : Answering P ctx) : ∀ (es : List Expr) {locals locals' : Locals}
    {store later : Store} {ts : List TypedExpr}, P store →
      Yields (exprs ctx es) locals store ts locals' later →
      Advances P locals store locals' later ∧
        List.Forall₂ (Expr.Elaborates (NodeTyped later) locals.naming) es ts
  | [], locals, locals', store, later, ts, hstore, h => by
      obtain ⟨rfl, rfl, rfl⟩ := yields_exprs_nil h
      exact ⟨.refl hstore, .nil⟩
  | e :: es, locals, locals', store, later, ts, hstore, h => by
      obtain ⟨t, _, _, ts, hexpr, hexprs, rfl⟩ := yields_exprs_cons h
      obtain ⟨hadvances, he⟩ := expr_elaborates hctx e hstore hexpr
      cases hadvances.locals_eq
      obtain ⟨hadvances', hes⟩ := exprs_elaborate hctx es hadvances.kept hexprs
      have he := hadvances'.carry he
      exact ⟨hadvances.trans hadvances', .cons he hes⟩
  termination_by structural es => es

theorem optionalCallee_elaborates (hctx : Answering P ctx) : ∀ (c : Option Expr)
    {locals locals' : Locals} {store later : Store} {c' : Option TypedExpr}, P store →
      Yields (optionalCallee ctx c) locals store c' locals' later →
      Advances P locals store locals' later ∧
        Option.Rel (Expr.Elaborates (NodeTyped later) locals.naming) c c'
  | none, locals, locals', store, later, c', hstore, h => by
      obtain ⟨rfl, rfl, rfl⟩ := yields_optionalCallee_none h
      exact ⟨.refl hstore, .none⟩
  | some c, locals, locals', store, later, c', hstore, h => by
      obtain ⟨callee, hexpr, -, rfl⟩ := yields_optionalCallee_some h
      obtain ⟨hadvances, hc⟩ := expr_elaborates hctx c hstore hexpr
      exact ⟨hadvances, .some hc⟩
  termination_by structural c => c

end

end RankPoly.Annotate
