import RankPoly.Demo
import RankPoly.Proofs.Session.Met

namespace RankPoly

open Annotate
open Ty (AllParts Ordered WidensTo)

-- Where a variable is known, an expression has it as it is known.
def TypedExpr.Agrees (env : NameMap Ty) (t : TypedExpr) : Prop :=
  ∀ ⦃name ty⦄, (TypedExpr.var name ty).Within t → ∀ known, env.find? name = some known → ty = known

theorem TypedExpr.Between.agrees {env env' : NameMap Ty} {t : TypedExpr}
    (ht : t.Between Ordered env env')
    (henv : ∀ {name ty}, env.find? name = some ty → AllParts Ordered ty)
    (hkept : ∀ name ty, env.find? name = some ty → env'.find? name = some ty) : t.Agrees env := by
  intro name ty hwithin known hknown
  exact (ht.vars hwithin).eq hknown (hkept name known hknown) (ht.nodes hwithin) (henv hknown)

theorem NameMap.contains_of_widens {env env' : NameMap Ty} (h : env.Widens env') {name : String}
    (hname : env.contains name = true) : env'.contains name = true := by
  obtain ⟨ty, hty⟩ := NameMap.contains_iff.mp hname
  obtain ⟨bound, hbound, -⟩ := h hty
  exact NameMap.contains_iff.mpr ⟨bound, hbound⟩

theorem NameMap.find?_of_extendedBy {env env' : NameMap Ty} (h : env.extendedBy env' = true)
    {name : String} {ty : Ty} (hname : env.find? name = some ty) : env'.find? name = some ty := by
  have hall := List.all_eq_true.mp h (name, ty) (NameMap.mem_of_find? hname)
  exact of_decide_eq_true hall

namespace Annotate

variable {p bound : Ty → Prop} {P : Store → Prop} {ctx : Context} {locals locals' : Locals}
  {store later : Store}

-- A block is typed front to back.
theorem yields_block_append (first : List (Stmt Expr)) : ∀ {locals : Locals} {store : Store}
    {rest : List (Stmt Expr)} {ts : List TypedStmt},
      Yields (block ctx (first ++ rest)) locals store ts locals' later →
      ∃ ts' middle between ts'', Yields (block ctx first) locals store ts' middle between ∧
        Yields (block ctx rest) middle between ts'' locals' later := by
  induction first with
  | nil =>
      intro locals store rest ts h
      exact ⟨[], locals, store, ts, yields_pure.mpr ⟨rfl, rfl, rfl⟩, h⟩
  | cons s first ih =>
      intro locals store rest ts h
      obtain ⟨t, _, _, ts, hstmt, hblock, rfl⟩ := yields_block_cons.mp h
      obtain ⟨ts', middle, between, ts'', hfirst, hrest⟩ := ih hblock
      exact ⟨t :: ts', middle, between, ts'',
        yields_block_cons.mpr ⟨t, _, _, ts', hstmt, hfirst, rfl⟩, hrest⟩

-- What a pass over a loop has left behind that settled it: nothing that was known
-- when all values had entered the loop has changed, neither in the end nor before any
-- statement of the body. So it is what all expressions have that were looked at from
-- then on, and what comes back from the body is taken in by it.
structure Settled (ctx : Context) (cond : Expr) (body : List (Stmt Expr)) (entered : Locals)
    (between : Store) (cond' : TypedExpr) (body' : List TypedStmt) (merges : List (Merge TypedExpr))
    (locals' : Locals) : Prop where
  kept : ∀ name ty, entered.env.find? name = some ty → locals'.env.find? name = some ty
  throughout : ∀ {start first rest ts middle last},
    Yields (condition ctx cond) entered between cond' entered start → body = first ++ rest →
    Yields (block ctx first) entered start ts middle last →
    ∀ name ty, entered.env.find? name = some ty → middle.env.find? name = some ty
  cond : cond'.Agrees entered.env
  body : ∀ s ∈ Stmt.withinBlock body', ∀ t ∈ s.exprs, t.Agrees entered.env
  merges : ∀ merge ∈ merges, merge.right.Agrees entered.env ∧
    ∃ ty, entered.env.find? merge.var = some ty ∧ merge.right.ty.WidensTo ty

-- What only moves up, and is the same in the end, has not moved.
theorem find?_of_between {env middle env' : NameMap Ty} (hwidens : env.Widens middle)
    (hwidens' : middle.Widens env')
    (hkept : ∀ name ty, env.find? name = some ty → env'.find? name = some ty)
    (henv : ∀ {name ty}, env.find? name = some ty → AllParts Ordered ty)
    (hmiddle : ∀ {name ty}, middle.find? name = some ty → AllParts Ordered ty) (name : String)
    (ty : Ty) (h : env.find? name = some ty) : middle.find? name = some ty := by
  obtain ⟨found, hfound, -⟩ := hwidens h
  have hbetween : env.Between env' name found :=
    (NameMap.Between.of_find? hfound).widen hwidens hwidens'
  cases hbetween.eq h (hkept name ty h) (hmiddle hfound) (henv h)
  exact hfound

-- A merge whose variable has one type before a value comes back, and in the end,
-- takes the value into that type.
theorem LoopMerge.widensTo {before entered after : NameMap Ty} {merge : Merge TypedExpr}
    (h : LoopMerge Ordered (AllParts Ordered) before entered after merge)
    (hkept : ∀ name ty, entered.find? name = some ty → after.find? name = some ty)
    (hentered : ∀ {name ty}, entered.find? name = some ty → AllParts Ordered ty) :
    ∃ ty, entered.find? merge.var = some ty ∧ merge.right.ty.WidensTo ty := by
  obtain ⟨ty, hty, -⟩ := h.seeded
  obtain ⟨old, new, hjoin, hold, hnew, holdParts, hnewParts⟩ := h.joined
  cases hold.eq hty (hkept _ _ hty) holdParts (hentered hty)
  cases hnew.eq hty (hkept _ _ hty) hnewParts (hentered hty)
  exact ⟨_, hty, Ty.combine_symm hjoin holdParts h.between.right.ty⟩

theorem LoopPass.settles {cond : Expr} {body : List (Stmt Expr)} {entered : Locals}
    {between : Store} {cond' : TypedExpr} {body' : List TypedStmt}
    {merges : List (Merge TypedExpr)} (hctx : Flowing Ordered (AllParts Ordered) P ctx)
    (hentered : Held Ordered (AllParts Ordered) P entered between)
    (h : LoopPass Ordered (AllParts Ordered) P (condition ctx cond) (block ctx body) locals entered
      between cond' body' merges true locals' later) :
    Settled ctx cond body entered between cond' body' merges locals' := by
  have hkept : ∀ name ty, entered.env.find? name = some ty → locals'.env.find? name = some ty :=
    fun _ _ => NameMap.find?_of_extendedBy h.settled_eq.symm
  refine ⟨hkept, ?_, h.cond.agrees hentered.env hkept, fun s hs t ht => ?_, fun merge hmerge => ?_⟩
  · intro start first rest ts middle last hcond hbody hfirst
    -- The run over the first statements is the start of the one over all of them.
    obtain ⟨start', middle', last', hcond', hstart, hblock, hlast⟩ := h.ran
    obtain ⟨-, rfl⟩ := Prod.mk.inj (hcond.symm.trans hcond')
    rw [hbody] at hblock
    obtain ⟨ts', middle'', between'', ts'', hfirst', hrest⟩ := yields_block_append first hblock
    cases hfirst.symm.trans hfirst'
    obtain ⟨hmoves, -⟩ := block_flows hctx first hstart hfirst
    obtain ⟨hmoves', -⟩ := block_flows hctx rest hmoves.held hrest
    exact find?_of_between hmoves.widens.env (hmoves'.trans hlast).widens.env hkept hentered.env
      hmoves.held.env
  · exact ((h.body s hs).exprs t ht).agrees hentered.env hkept
  · have hmerge := h.merges merge hmerge
    exact ⟨hmerge.between.right.agrees hentered.env hkept, hmerge.widensTo hkept hentered.env⟩

end Annotate

-- A loop that is typed, at any time of a session, is typed by its last pass, which
-- has settled it. All variables that were known before are known when the last pass
-- starts with the condition, and so are those of the merges.
theorem loop_settled {settings : Settings} (hpasses : settings.Keeps Ordered) {store later : Store}
    (hstore : Met settings store) {depth : Nat} {waiting : List Request} {cond : Expr}
    {body : List (Stmt Expr)} {merges : List (Merge Expr)} {locals locals' : Locals} {t : TypedStmt}
    (henv : ∀ {name ty}, locals.env.find? name = some ty → AllParts Ordered ty)
    (h : Yields (stmt (settings.context depth waiting) (.loop cond body merges)) locals store t
      locals' later) :
    let ctx := settings.context depth waiting
    let pass := loopPass ctx cond (block ctx body) merges
    ∃ start before entries entered between cond' body' merges',
      Unsettled pass locals store start before ∧
      Yields pass start before (t, true) locals' later ∧
      Yields (enterLoop ctx merges) start before entries entered between ∧
      t = .loop cond' body' merges' ∧
      (∀ name, locals.env.contains name = true ∨ start.env.contains name = true ∨
        (∃ merge ∈ merges', merge.var = name) → entered.env.contains name = true) ∧
      Settled ctx cond body entered between cond' body' merges' locals' := by
  intro ctx pass
  have hp := Ty.stable_ordered.regime
  have hctx : Flowing Ordered (AllParts Ordered) (Store.Sure Ordered) ctx :=
    (Session.kept_sure hp hpasses).flowing hp id depth waiting
  have hheld : Held Ordered (AllParts Ordered) (Store.Sure Ordered) locals store :=
    ⟨(Session.lasting_sure hp hpasses).of_met hstore, henv⟩
  unfold stmt at h
  obtain ⟨start, before, hunsettled, hmoves, hlast⟩ :=
    settle_last hctx (block_flows hctx body) _ hheld h
  obtain ⟨entries, entered, between, cond', body', merges', henter, hmoves', rfl, hpass⟩ :=
    loopPass_runs hctx (block_flows hctx body) hmoves.held hlast
  refine ⟨start, before, entries, entered, between, cond', body', merges', hunsettled, hlast, henter,
    rfl, ?_, hpass.settles hctx hmoves'.held⟩
  rintro name (hname | hname | ⟨merge, hmerge, rfl⟩)
  · exact NameMap.contains_of_widens (hmoves.trans hmoves').widens.env hname
  · exact NameMap.contains_of_widens hmoves'.widens.env hname
  · obtain ⟨ty, hty, -⟩ := (hpass.merges merge hmerge).seeded
    exact NameMap.contains_iff.mpr ⟨ty, hty⟩

-- The second variable is entered as an integer, and a float comes back from the
-- body, so the first pass does not settle the loop, and all that the second one has
-- of the variable is a float.
theorem halve_loop_settled :
    let ctx := Settings.context (.ofLimits {}) 0 []
    let cond : Expr := .prim .lt [.var "i", .var "n"]
    let body : List (Stmt Expr) := [.assign (.var "x1") (.prim .div [.var "x", .const (.int 2)]),
      .assign (.var "i1") (.prim .add [.var "i", .const (.int 1)])]
    let merges : List (Merge Expr) := [⟨"i", .var "i0", .var "i1"⟩, ⟨"x", .var "x0", .var "x1"⟩]
    let names := ["i0", "n", "x0"]
    let locals : Locals :=
      { names := names.map fun name => (name, name)
        env := names.map fun name => (name, Ty.i64) }
    ∃ t locals' later entered between cond' body' merges',
      Yields (stmt ctx (.loop cond body merges)) locals {} t locals' later ∧
      t = .loop cond' body' merges' ∧
      Settled ctx cond body entered between cond' body' merges' locals' := by
  intro ctx cond body merges names locals
  have henv : ∀ {name ty}, locals.env.find? name = some ty → AllParts Ordered ty := by
    intro name ty h
    have hall : ∀ entry ∈ locals.env, AllParts Ordered entry.2 := by decide
    exact hall _ (NameMap.mem_of_find? h)
  obtain ⟨⟨t, locals'⟩, later, h⟩ := Outcome.exists_ok
    (o := outcome (stmt ctx (.loop cond body merges)) locals {}) (by decide +kernel)
  obtain ⟨_, _, _, entered, between, cond', body', merges', -, -, -, ht, -, hsettled⟩ :=
    loop_settled (Settings.keeps_ofLimits {} Ordered) (.reached .start) henv h
  exact ⟨t, locals', later, entered, between, cond', body', merges', h, ht, hsettled⟩

end RankPoly
