import RankPoly.Demo
import RankPoly.Proofs.Recurs.Stmt
import RankPoly.Proofs.Session.Met
import RankPoly.Proofs.Session.Recall

namespace RankPoly

open Annotate
open Ty (AllParts)

-- In a session, a call that has been answered is answered in the same way for as long
-- as the session lasts.
theorem Session.Kept.recalling {settings : Settings} {P : Store → Prop}
    (hP : Kept settings P) (hcoherent : ∀ {store}, P store → store.Coherent) (depth : Nat)
    (waiting : List Request) : Recalling P (settings.context depth waiting) where
  addWrapper op h := (Leads.withWrapper hP _ op).2 h
  invoke := by
    intro store callee args ty later hstore h
    have hserves := serves_specializeWithin hP depth waiting
    obtain ⟨hgrows, hkeeps⟩ := hserves.leads_invokeWith hP store callee args
    change outcome (invokeWith (specializeWithin settings depth waiting) callee args) store =
      (.ok ty, later) at h
    rw [h] at hgrows hkeeps
    exact ⟨hgrows, hkeeps hstore⟩
  again := by
    intro store callee args ty later after hstore h hafter hgrows
    have hserves := serves_specializeWithin hP depth waiting
    have hanswer := invokeWith_answer hserves (hcoherent hstore) h
    exact invokeWith_of_answer settings depth waiting (hcoherent hafter) (hgrows.answer hanswer)

-- What lies between what is known of a variable at some time and what is known of it
-- at the same time is that.
theorem NameMap.Between.find? {env : NameMap Ty} {name : String} {ty : Ty}
    (h : env.Between env name ty) (hty : AllParts Ty.Ordered ty)
    (henv : ∀ {name ty}, env.find? name = some ty → AllParts Ty.Ordered ty) :
    env.find? name = some ty := by
  obtain ⟨bound, hbound, -⟩ := h.below
  rw [h.eq hbound hbound hty (henv hbound)]
  exact hbound

-- A loop that has been typed, at any time of a session, is typed in the same way by one
-- more pass that starts where the last one has ended, and that changes nothing, if and
-- only if all variables in it, at any depth, have the types that are known of them in
-- the end.
theorem loop_recurs_iff {settings : Settings} (hpasses : settings.Keeps Ty.Proper)
    {store later : Store} (hstore : Met settings store) {depth : Nat} {waiting : List Request}
    {cond : Expr} {body : List (Stmt Expr)} {merges : List (Merge Expr)} {locals locals' : Locals}
    {t : TypedStmt} (hlocals : locals.Proper)
    (h : Yields (stmt (settings.context depth waiting) (.loop cond body merges)) locals store t
      locals' later) :
    let ctx := settings.context depth waiting
    (∃ last, Yields (loopPass ctx cond (block ctx body) merges) locals' later (t, true) locals'
      last) ↔ t.Rests locals'.env := by
  intro ctx
  have hp := Ty.stable_proper.regime
  have hkept := Session.kept_sure hp hpasses
  have hctx : Flowing Ty.Proper (AllParts Ty.Proper) (Store.Sure Ty.Proper) ctx :=
    hkept.flowing hp id depth waiting
  have hruns : BlockRuns Ty.Proper (AllParts Ty.Proper) (Store.Sure Ty.Proper) (block ctx body) :=
    block_flows hctx body
  have hheld : HeldProper (Store.Sure Ty.Proper) locals store :=
    ⟨(Session.lasting_sure hp hpasses).of_met hstore, hlocals.env⟩
  unfold stmt at h
  obtain ⟨start, before, -, hmoves, hlast⟩ := settle_last hctx hruns _ hheld h
  obtain ⟨hmoves', -⟩ := loopPass_flows hctx hruns hmoves.held hlast
  have hwhole := hmoves.trans hmoves'
  have hfinal : locals'.Proper :=
    ⟨hwhole.sorted hlocals.sorted, hwhole.held.env, hwhole.returned hlocals.returnType⟩
  constructor
  · rintro ⟨last, hagain⟩
    obtain ⟨-, hbetween⟩ := loopPass_flows hctx hruns hwhole.held hagain
    intro s hs e he name ty hvar
    have he := (hbetween s hs).exprs e he
    exact (he.vars hvar).find? ((he.nodes hvar).imp fun _ => Ty.Proper.ordered)
      fun hty => (hfinal.env hty).imp fun _ => Ty.Proper.ordered
  · intro hrests
    have hrecurring : Recurring (Store.Sure Ty.Proper) ctx locals' :=
      ⟨hctx, hkept.recalling Store.Sure.coherent depth waiting, hfinal⟩
    have hpass := loopPass_recurs hrecurring hruns (block_recurs hrecurring body) hmoves.held hlast
      ⟨le_rfl, .refl locals'⟩ hrests
    obtain ⟨last, hagain, -⟩ := hpass.again hwhole.held.store (.refl later)
    exact ⟨last, hagain⟩

-- A loop that counts: its variable is what it was on entry whenever it comes back.
theorem count_recurs :
    let ctx := Settings.context (.ofLimits {}) 0 []
    let cond : Expr := .prim .lt [.var "i", .var "n"]
    let body : List (Stmt Expr) := [.assign (.var "i1") (.prim .add [.var "i", .const (.int 1)])]
    let merges : List (Merge Expr) := [⟨"i", .const (.int 0), .var "i1"⟩]
    let locals : Locals := { names := [("n", "n")], env := [("n", .i64)] }
    let typed : TypedStmt := .loop (.prim .lt [.var "i.0" .i64, .var "n" .i64] .bool)
      [.assign (.var "i1.1" .i64)
        (.prim .add [.var "i.0" .i64, .const (.int 1) .i64] .i64)]
      [⟨"i.0", .const (.int 0) .i64, .var "i1.1" .i64⟩]
    let locals' : Locals :=
      { names := [("i", "i.0"), ("i1", "i1.1"), ("n", "n")]
        env := [("i.0", .i64), ("i1.1", .i64), ("n", .i64)] }
    Yields (stmt ctx (.loop cond body merges)) locals {} typed locals' { fresh := ⟨2⟩ } ∧
      Yields (loopPass ctx cond (block ctx body) merges) locals' { fresh := ⟨2⟩ } (typed, true)
        locals' { fresh := ⟨2⟩ } ∧
      typed.Rests locals'.env := by
  intro ctx cond body merges locals typed locals'
  have hlocals : locals.Proper := by
    refine ⟨List.pairwise_singleton _ _, fun {name ty} h => ?_, nofun⟩
    have hall : ∀ entry ∈ locals.env, AllParts Ty.Proper entry.2 := by decide
    exact hall _ (NameMap.mem_of_find? h)
  have h : Yields (stmt ctx (.loop cond body merges)) locals {} typed locals' { fresh := ⟨2⟩ } := by
    subst ctx cond body merges locals typed locals'
    rfl
  have hagain : Yields (loopPass ctx cond (block ctx body) merges) locals' { fresh := ⟨2⟩ }
      (typed, true) locals' { fresh := ⟨2⟩ } := by
    subst ctx cond body merges locals typed locals'
    rfl
  have hrecurs := loop_recurs_iff (Settings.keeps_ofLimits {} Ty.Proper) (.reached .start) hlocals h
  exact ⟨h, hagain, hrecurs.mp ⟨_, hagain⟩⟩

-- A pass only looks at what was bound when the condition was typed. A variable that
-- is first bound in the body may be read there before it is widened, and one more
-- pass reads it as it is then. And where arrays have no dimensions, what is returned
-- may not be joined again, with all variables at rest.
theorem loop_not_fixpoint :
    let ctx := Settings.context (.ofLimits {}) 0 []
    let cond : Expr := .const (.bool true)
    let body : List (Stmt Expr) := [.assign (.var "y") (.const (.bool true)),
      .assign (.var "z") (.var "y"), .assign (.var "y") (.const (.int 1))]
    let typed (ty : Ty) : TypedStmt := .loop (.const (.bool true) .bool)
      [.assign (.var "y.0" ty) (.const (.bool true) .bool),
        .assign (.var "z.1" ty) (.var "y.0" ty),
        .assign (.var "y.0" .i64) (.const (.int 1) .i64)] []
    let known (ty : Ty) : Locals :=
      { names := [("y", "y.0"), ("z", "z.1")]
        env := [("y.0", .i64), ("z.1", ty)] }
    let returns : List (Stmt Expr) := [.ret (.var "a"), .ret (.var "b")]
    let flat : Locals :=
      { names := [("a", "a"), ("b", "b")]
        env := [("a", .array .i64 0), ("b", .array .f64 0)] }
    let flatStmt : TypedStmt := .loop (.const (.bool true) .bool)
      [.ret (.var "a" (.array .i64 0)), .ret (.var "b" (.array .f64 0))] []
    let returned := { flat with returnType := some Ty.f64 }
    (Yields (stmt ctx (.loop cond body [])) {} {} (typed .bool) (known .bool) { fresh := ⟨2⟩ } ∧
      Yields (loopPass ctx cond (block ctx body) []) (known .bool) { fresh := ⟨2⟩ }
        (typed .i64, false) (known .i64) { fresh := ⟨2⟩ }) ∧
    Yields (stmt ctx (.loop cond returns [])) flat {} flatStmt returned {} ∧
      flatStmt.Rests returned.env ∧
      outcome (loopPass ctx cond (block ctx returns) []) returned {} =
        (.error (.ofTy (.conflict .f64 (.array .i64 0))), {}) := by
  refine ⟨⟨rfl, rfl⟩, rfl, ?_, rfl⟩
  refine Stmt.rests_loop.mpr ⟨⟨?_, List.forall_mem_nil _⟩, ?_⟩
  · rintro name ty (_ | ⟨⟨⟩, -⟩)
  · intro s hs t ht name ty hvar
    simp only [Stmt.withinBlock, Stmt.within, List.cons_append, List.nil_append, List.mem_cons,
      List.not_mem_nil, or_false] at hs
    rcases hs with rfl | rfl <;> cases List.mem_singleton.mp ht <;>
      rcases hvar with _ | ⟨⟨⟩, -⟩ <;> rfl

end RankPoly
