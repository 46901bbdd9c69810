import RankPoly.Proofs.Elaboration.Expr
import RankPoly.Proofs.Fresh
import RankPoly.Proofs.Steps.Stmt

namespace RankPoly

namespace Stmt

variable {ε : Type}

mutual

-- Whether a statement returns a value anywhere.
def returns : Stmt ε → Bool
  | .assign .. => false
  | .branch _ onTrue onFalse _ => blockReturns onTrue || blockReturns onFalse
  | .loop _ body _ => blockReturns body
  | .ret _ => true
  termination_by structural s => s

def blockReturns : List (Stmt ε) → Bool
  | [] => false
  | first :: rest => returns first || blockReturns rest
  termination_by structural b => b

end

end Stmt

-- The locals of a function have been drawn for their variables, no two of which
-- share one.
structure Locals.Named (locals : Locals) (store : Store) : Prop where
  drawn : ∀ {name known}, locals.naming name known →
    ∃ count < store.fresh.next, known = (Fresh.refresh ⟨count⟩ name).1
  injective : ∀ {name name' known}, locals.naming name known → locals.naming name' known →
    name = name'

theorem Locals.Named.empty (store : Store) : Locals.Named {} store where
  drawn h := nomatch h
  injective h := nomatch h

theorem Locals.Named.mono {locals : Locals} {store later : Store} (h : locals.Named store)
    (hle : store.fresh.next ≤ later.fresh.next) : locals.Named later where
  drawn hname := by
    obtain ⟨count, hlt, rfl⟩ := h.drawn hname
    exact ⟨count, hlt.trans_le hle, rfl⟩
  injective := h.injective

theorem Locals.Named.rename {locals : Locals} {store : Store} (h : locals.Named store)
    (name : String) :
    Locals.Named
      { locals with names := locals.names.insert name (store.fresh.refresh name).1 }
      { store with fresh := (store.fresh.refresh name).2 } := by
  -- No local that was drawn before is the one that is drawn now.
  have hnew : ∀ {other}, ¬locals.naming other (store.fresh.refresh name).1 := by
    intro other hother
    obtain ⟨count, hlt, heq⟩ := h.drawn hother
    have heq : store.fresh.next = count := Fresh.count_eq_of_refresh_eq heq
    omega
  have hnaming : ∀ {other known}, Locals.naming
      { locals with names := locals.names.insert name (store.fresh.refresh name).1 } other known →
      name = other ∧ known = (store.fresh.refresh name).1 ∨ locals.naming other known := by
    intro other known hother
    unfold Locals.naming at hother
    rw [NameMap.find?_insert] at hother
    split at hother
    · rename_i heq
      exact Or.inl ⟨heq, (Option.some.inj hother).symm⟩
    · exact Or.inr hother
  refine ⟨?_, ?_⟩
  · intro other known hother
    rcases hnaming hother with ⟨rfl, rfl⟩ | hother
    · exact ⟨store.fresh.next, Nat.lt_succ_self _, rfl⟩
    · obtain ⟨count, hlt, rfl⟩ := h.drawn hother
      exact ⟨count, hlt.trans (Nat.lt_succ_self _), rfl⟩
  · intro other other' known hother hother'
    rcases hnaming hother with ⟨rfl, rfl⟩ | hother <;>
      rcases hnaming hother' with ⟨rfl, hknown⟩ | hother'
    · rfl
    · exact (hnew hother').elim
    · exact (hnew (hknown ▸ hother)).elim
    · exact h.injective hother hother'

theorem Locals.Named.setEnv {locals : Locals} {store : Store} (h : locals.Named store)
    (env : NameMap Ty) : Locals.Named { locals with env } store :=
  ⟨h.drawn, h.injective⟩

namespace Annotate

variable {P : Store → Prop} {ctx : Context} {returns returns' : Bool}
  {locals middle locals' : Locals} {store between later : Store}

-- A run that keeps the locals that variables have. It returns a value if and
-- only if it is said to.
structure Proceeds (P : Store → Prop) (returns : Bool) (locals : Locals) (store : Store)
    (locals' : Locals) (later : Store) : Prop where
  naming : locals.naming ≤ locals'.naming
  grows : store.Grows later
  kept : P later
  named : locals.Named store → locals'.Named later
  returnType : locals'.returnType.isSome = (locals.returnType.isSome || returns)

theorem Advances.proceeds (h : Advances P locals store locals' later) :
    Proceeds P false locals store locals' later := by
  obtain ⟨rfl, hgrows, hkept⟩ := h
  exact ⟨le_rfl, hgrows, hkept, fun h => h.mono hgrows.fresh, (Bool.or_false _).symm⟩

namespace Proceeds

theorem trans (h : Proceeds P returns locals store middle between)
    (h' : Proceeds P returns' middle between locals' later) :
    Proceeds P (returns || returns') locals store locals' later where
  naming := h.naming.trans h'.naming
  grows := h.grows.trans h'.grows
  kept := h'.kept
  named := h'.named ∘ h.named
  returnType := by rw [h'.returnType, h.returnType, Bool.or_assoc]

theorem trans_quiet (h : Proceeds P returns locals store middle between)
    (h' : Proceeds P false middle between locals' later) :
    Proceeds P returns locals store locals' later := by
  simpa using h.trans h'

theorem quiet_trans (h : Proceeds P false locals store middle between)
    (h' : Proceeds P returns middle between locals' later) :
    Proceeds P returns locals store locals' later := by
  simpa using h.trans h'

theorem setEnv (h : P store) (env : NameMap Ty) :
    Proceeds P false locals store { locals with env } store where
  naming := le_rfl
  grows := .refl store
  kept := h
  named h := h.setEnv env
  returnType := (Bool.or_false _).symm

variable {e : Expr} {t : TypedExpr}

-- What has elaborated stays so, however the run goes on.
theorem carry (h : Proceeds P returns locals store locals' later)
    (he : e.Elaborates (NodeTyped store) locals.naming t) :
    e.Elaborates (NodeTyped later) locals'.naming t :=
  he.imp (NodeTyped.mono h.grows) h.naming _ _

theorem carryBlock (h : Proceeds P returns locals store locals' later)
    {source : List (Stmt Expr)} {body : List TypedStmt}
    (hbody : List.Forall₂ (Stmt.Elaborates (NodeTyped store) locals.naming) source body) :
    List.Forall₂ (Stmt.Elaborates (NodeTyped later) locals'.naming) source body :=
  hbody.imp fun _ _ hs => hs.imp h.naming fun _ _ he => h.carry he

end Proceeds

theorem condition_elaborates (hctx : Answering P ctx) (hstore : P store) {e : Expr} {t : TypedExpr}
    (h : Yields (condition ctx e) locals store t locals' later) :
    Advances P locals store locals' later ∧ e.Elaborates (NodeTyped later) locals.naming t :=
  expr_elaborates hctx e hstore (yields_condition h).1

-- A variable keeps the local it has, or gets its first one.
theorem localFor_proceeds (hctx : Answering P ctx) (hstore : P store) {name known : String}
    (h : Yields (localFor name) locals store known locals' later) :
    Proceeds P false locals store locals' later ∧ locals'.naming name known := by
  obtain ⟨hfound, rfl, rfl⟩ | ⟨hfree, hrename⟩ := yields_localFor.mp h
  · exact ⟨(Advances.refl hstore).proceeds, hfound⟩
  · obtain ⟨rfl, rfl, rfl⟩ := yields_rename.mp hrename
    exact ⟨⟨fun _ _ => NameMap.find?_insert_of_free hfree, ⟨id, id, by simp⟩,
      hctx.fresh name hstore, fun h => h.rename name, (Bool.or_false _).symm⟩,
      NameMap.find?_insert_self _ _ _⟩

theorem widen_proceeds (hstore : P store) {known : String} {ty widened : Ty}
    (h : Yields (widen known ty) locals store widened locals' later) :
    Proceeds P false locals store locals' later := by
  obtain ⟨-, rfl, rfl⟩ := yields_widen.mp h
  exact .setEnv hstore _

theorem returns_proceeds (hstore : P store) {ty : Ty} {u : Unit}
    (h : Yields (Annotate.returns ty) locals store u locals' later) :
    Proceeds P true locals store locals' later := by
  obtain ⟨widened, -, rfl, rfl⟩ := yields_returns.mp h
  exact ⟨le_rfl, .refl _, hstore, fun h => ⟨h.drawn, h.injective⟩, (Bool.or_true _).symm⟩

theorem storeInto_typed {e i : Expr} {value selector t : TypedExpr} {stored : Ty} {naming : Naming}
    (he : e.Elaborates (NodeTyped store) naming value)
    (hi : i.Elaborates (NodeTyped store) naming selector) (harray : value.ty.isArray = true)
    (h : Yields (storeInto value selector stored) locals store t locals' later) :
    (Expr.index e i).Elaborates (NodeTyped store) naming t ∧ locals = locals' ∧ store = later := by
  obtain ⟨slot, hslot, rfl, rfl, rfl⟩ := yields_storeInto h
  refine ⟨.index he hi ?_ (.index hslot), rfl, rfl⟩
  intro elems htuple
  rw [htuple] at harray
  cases harray

mutual

-- What is assigned to elaborates like an expression.
theorem target_elaborates (hctx : Answering P ctx) : ∀ (lhs : Expr) {rhs : Ty}
    {locals locals' : Locals} {store later : Store} {t : TypedExpr}, P store →
      Yields (target ctx lhs rhs) locals store t locals' later →
      Proceeds P false locals store locals' later ∧
        lhs.Elaborates (NodeTyped later) locals'.naming t
  | .var name, rhs, locals, locals', store, later, t, hstore, h => by
      obtain ⟨known, _, _, ty, hlocal, hwiden, rfl⟩ := yields_target_var h
      obtain ⟨hproceeds, hknown⟩ := localFor_proceeds hctx hstore hlocal
      have hproceeds' := widen_proceeds hproceeds.kept hwiden
      exact ⟨hproceeds.trans hproceeds', .var (hproceeds'.naming _ _ hknown) .var⟩
  | .tuple parts, rhs, locals, locals', store, later, t, hstore, h => by
      obtain ⟨elems, parts', rfl, hlength, htargets, rfl⟩ := yields_target_tuple h
      obtain ⟨hproceeds, hparts⟩ := targets_elaborate hctx parts hlength hstore htargets
      exact ⟨hproceeds, .tuple hparts .tuple⟩
  | .index value selector, rhs, locals, locals', store, later, t, hstore, h => by
      obtain ⟨value', _, _, selector', _, _, hvalue, harray, hselector, hinto⟩ :=
        yields_target_index h
      obtain ⟨hadvances, he⟩ := expr_elaborates hctx value hstore hvalue
      cases hadvances.locals_eq
      obtain ⟨hadvances', hi⟩ := expr_elaborates hctx selector hadvances.kept hselector
      cases hadvances'.locals_eq
      obtain ⟨ht, rfl, rfl⟩ := storeInto_typed (hadvances'.proceeds.carry he) hi harray hinto
      exact ⟨(hadvances.trans hadvances').proceeds, ht⟩
  | .attribute value name, rhs, locals, locals', store, later, t, hstore, h => by
      obtain ⟨value', field, _, hvalue, hfield, -, rfl⟩ := yields_target_attribute h
      obtain ⟨hadvances, he⟩ := expr_elaborates hctx value hstore hvalue
      obtain ⟨⟨fields, hfields, hty⟩, -, -⟩ := yields_fieldType hfield
      cases hadvances.locals_eq
      exact ⟨hadvances.proceeds, .attribute he (.field hfields hty)⟩
  | .const _, _, _, _, _, _, _, _, h | .array _, _, _, _, _, _, _, _, h
  | .slice .., _, _, _, _, _, _, _, h | .prim .., _, _, _, _, _, _, _, h
  | .closure .., _, _, _, _, _, _, _, h | .invoke .., _, _, _, _, _, _, _, h
  | .map .., _, _, _, _, _, _, _, h | .fold .., _, _, _, _, _, _, _, h
  | .allPairs .., _, _, _, _, _, _, _, h => by
      unfold target at h
      exact (yields_throw h).elim
  termination_by structural lhs => lhs

theorem targets_elaborate (hctx : Answering P ctx) : ∀ (parts : List Expr) {elems : List Ty}
    {locals locals' : Locals} {store later : Store} {ts : List TypedExpr},
      elems.length = parts.length → P store →
      Yields (targets ctx parts elems) locals store ts locals' later →
      Proceeds P false locals store locals' later ∧
        List.Forall₂ (Expr.Elaborates (NodeTyped later) locals'.naming) parts ts
  | [], elems, locals, locals', store, later, ts, hlength, hstore, h => by
      obtain ⟨rfl, rfl, rfl⟩ := yields_targets_nil h
      exact ⟨(Advances.refl hstore).proceeds, .nil⟩
  | part :: parts, elem :: elems, locals, locals', store, later, ts, hlength, hstore, h => by
      obtain ⟨t, _, _, ts, htarget, htargets, rfl⟩ := yields_targets_cons h
      obtain ⟨hproceeds, ht⟩ := target_elaborates hctx part hstore htarget
      obtain ⟨hproceeds', hts⟩ :=
        targets_elaborate hctx parts (Nat.succ.inj hlength) hproceeds.kept htargets
      exact ⟨hproceeds.trans hproceeds', .cons (hproceeds'.carry ht) hts⟩
  termination_by structural parts => parts

end

-- Merges of one shape with their sources, whose values have elaborated.
abbrev MergeElaborates (store : Store) (naming : Naming) : Merge Expr → Merge TypedExpr → Prop :=
  Merge.Alike naming (Expr.Elaborates (NodeTyped store) naming)

theorem branchMerges_elaborate (hctx : Answering P ctx) : ∀ (merges : List (Merge Expr))
    {locals locals' : Locals} {store later : Store} {merges' : List (Merge TypedExpr)}, P store →
      Yields (branchMerges ctx merges) locals store merges' locals' later →
      Proceeds P false locals store locals' later ∧
        List.Forall₂ (MergeElaborates later locals'.naming) merges merges'
  | [], locals, locals', store, later, merges', hstore, h => by
      obtain ⟨rfl, rfl, rfl⟩ := yields_branchMerges_nil h
      exact ⟨(Advances.refl hstore).proceeds, .nil⟩
  | merge :: merges, locals, locals', store, later, merges', hstore, h => by
      obtain ⟨left, _, _, right, _, _, var, _, _, both, _, _, _, rest, hleft, hright, hlocal, -,
        hwiden, hrest, rfl⟩ := yields_branchMerges_cons h
      obtain ⟨hadvances, hl⟩ := expr_elaborates hctx merge.left hstore hleft
      cases hadvances.locals_eq
      obtain ⟨hadvances', hr⟩ := expr_elaborates hctx merge.right hadvances.kept hright
      cases hadvances'.locals_eq
      obtain ⟨hproceeds, hvar⟩ := localFor_proceeds hctx hadvances'.kept hlocal
      have hproceeds' := hproceeds.trans (widen_proceeds hproceeds.kept hwiden)
      obtain ⟨hproceeds'', hmerges⟩ := branchMerges_elaborate hctx merges hproceeds'.kept hrest
      have hlast := hproceeds'.trans hproceeds''
      refine ⟨(hadvances.trans hadvances').proceeds.trans hlast, .cons ⟨?_, ?_, ?_⟩ hmerges⟩
      · exact ((widen_proceeds hproceeds.kept hwiden).trans hproceeds'').naming _ _ hvar
      · exact hlast.carry (hadvances'.proceeds.carry hl)
      · exact hlast.carry hr

-- The values that enter a loop, with the locals of the merges that take them.
structure Enters (store : Store) (naming : Naming) (merge : Merge Expr)
    (entry : String × TypedExpr) : Prop where
  var : naming merge.var entry.1
  left : merge.left.Elaborates (NodeTyped store) naming entry.2

theorem Proceeds.carryEntries {merges : List (Merge Expr)} {entries : List (String × TypedExpr)}
    (h : Proceeds P returns locals store locals' later)
    (hentries : List.Forall₂ (Enters store locals.naming) merges entries) :
    List.Forall₂ (Enters later locals'.naming) merges entries :=
  hentries.imp fun _ _ hentry => ⟨h.naming _ _ hentry.var, h.carry hentry.left⟩

theorem enterLoop_elaborate (hctx : Answering P ctx) : ∀ (merges : List (Merge Expr))
    {locals locals' : Locals} {store later : Store} {entries : List (String × TypedExpr)}, P store →
      Yields (enterLoop ctx merges) locals store entries locals' later →
      Proceeds P false locals store locals' later ∧
        List.Forall₂ (Enters later locals'.naming) merges entries
  | [], locals, locals', store, later, entries, hstore, h => by
      obtain ⟨rfl, rfl, rfl⟩ := yields_enterLoop_nil h
      exact ⟨(Advances.refl hstore).proceeds, .nil⟩
  | merge :: merges, locals, locals', store, later, entries, hstore, h => by
      obtain ⟨left, _, _, var, _, _, _, _, _, rest, hleft, hlocal, hwiden, hrest, rfl⟩ :=
        yields_enterLoop_cons h
      obtain ⟨hadvances, hl⟩ := expr_elaborates hctx merge.left hstore hleft
      cases hadvances.locals_eq
      obtain ⟨hproceeds, hvar⟩ := localFor_proceeds hctx hadvances.kept hlocal
      have hwiden := widen_proceeds hproceeds.kept hwiden
      obtain ⟨hproceeds', hentries⟩ := enterLoop_elaborate hctx merges hwiden.kept hrest
      have hlast := hwiden.trans hproceeds'
      refine ⟨hadvances.proceeds.trans (hproceeds.trans hlast), .cons ⟨?_, ?_⟩ hentries⟩
      · exact hlast.naming _ _ hvar
      · exact hlast.carry (hproceeds.carry hl)

theorem closeLoop_elaborate (hctx : Answering P ctx) : ∀ {merges : List (Merge Expr)}
    {entries : List (String × TypedExpr)} {locals locals' : Locals} {store later : Store}
    {merges' : List (Merge TypedExpr)}, P store →
      List.Forall₂ (Enters store locals.naming) merges entries →
      Yields (closeLoop ctx merges entries) locals store merges' locals' later →
      Proceeds P false locals store locals' later ∧
        List.Forall₂ (MergeElaborates later locals'.naming) merges merges'
  | _, _, locals, locals', store, later, merges', hstore, .nil, h => by
      obtain ⟨rfl, rfl, rfl⟩ := yields_closeLoop_nil (.inl rfl) h
      exact ⟨(Advances.refl hstore).proceeds, .nil⟩
  | merge :: merges, (var, left) :: entries, locals, locals', store, later, merges', hstore,
      .cons hentry hentries, h => by
      obtain ⟨right, _, _, _, _, _, rest, hright, hwiden, hrest, rfl⟩ := yields_closeLoop_cons h
      obtain ⟨hadvances, hr⟩ := expr_elaborates hctx merge.right hstore hright
      cases hadvances.locals_eq
      have hproceeds := hadvances.proceeds.trans (widen_proceeds hadvances.kept hwiden)
      obtain ⟨hproceeds', hmerges⟩ :=
        closeLoop_elaborate hctx hproceeds.kept (hproceeds.carryEntries hentries) hrest
      have hlast := (widen_proceeds hadvances.kept hwiden).trans hproceeds'
      refine ⟨hproceeds.trans hproceeds', .cons ⟨?_, ?_, hlast.carry hr⟩ hmerges⟩
      · exact (hproceeds.trans hproceeds').naming _ _ hentry.var
      · exact (hproceeds.trans hproceeds').carry hentry.left

-- What a run over a block of statements comes to.
def BlockElaborates (P : Store → Prop) (body : List (Stmt Expr)) (m : Annotate (List TypedStmt)) :
    Prop :=
  ∀ {locals locals' : Locals} {store later : Store} {body' : List TypedStmt}, P store →
    Yields m locals store body' locals' later →
    Proceeds P (Stmt.blockReturns body) locals store locals' later ∧
      List.Forall₂ (Stmt.Elaborates (NodeTyped later) locals'.naming) body body'

theorem loopPass_elaborates (hctx : Answering P ctx) {cond : Expr} {body : List (Stmt Expr)}
    {m : Annotate (List TypedStmt)} (hbody : BlockElaborates P body m) {merges : List (Merge Expr)}
    {t : TypedStmt} {settled : Bool} (hstore : P store)
    (h : Yields (loopPass ctx cond m merges) locals store (t, settled) locals' later) :
    Proceeds P (Stmt.blockReturns body) locals store locals' later ∧
      Stmt.Elaborates (NodeTyped later) locals'.naming (.loop cond body merges) t := by
  obtain ⟨entries, _, _, cond', _, _, body', _, _, merges', henter, hcond, hblock, hclose, rfl, -⟩ :=
    yields_loopPass h
  obtain ⟨hproceeds, hentries⟩ := enterLoop_elaborate hctx merges hstore henter
  obtain ⟨hadvances, hc⟩ := condition_elaborates hctx hproceeds.kept hcond
  cases hadvances.locals_eq
  obtain ⟨hproceeds', hb⟩ := hbody hadvances.kept hblock
  have hinside := hadvances.proceeds.quiet_trans hproceeds'
  obtain ⟨hproceeds'', hm⟩ := closeLoop_elaborate hctx hproceeds'.kept
    (hinside.carryEntries hentries) hclose
  refine ⟨(hproceeds.quiet_trans hinside).trans_quiet hproceeds'', .loop ?_ ?_ hm⟩
  · exact (hproceeds'.trans hproceeds'').carry hc
  · exact hproceeds''.carryBlock hb

-- Passes over a loop, one after another, with what they gave.
inductive Passes (pass : Annotate (TypedStmt × Bool)) :
    Locals → Store → List TypedStmt → Locals → Store → Prop where
  | last {locals locals' : Locals} {store later : Store} {t : TypedStmt} :
      Yields pass locals store (t, true) locals' later → Passes pass locals store [t] locals' later
  | again {locals middle locals' : Locals} {store between later : Store} {t : TypedStmt}
      {ts : List TypedStmt} : Yields pass locals store (t, false) middle between →
      Passes pass middle between ts locals' later → Passes pass locals store (t :: ts) locals' later

-- A loop that settles is what the last of its passes gave.
theorem settle_passes {limit : Nat} {pass : Annotate (TypedStmt × Bool)} {t : TypedStmt}
    (left : Nat) : ∀ {locals : Locals} {store : Store},
      Yields (settle limit pass left) locals store t locals' later →
      ∃ ts, Passes pass locals store ts locals' later ∧ ts.getLast? = some t := by
  induction left with
  | zero =>
      intro locals store h
      exact (yields_throw h).elim
  | succ left ih =>
      intro locals store h
      obtain hpass | ⟨t', middle, between, hpass, hsettle⟩ := yields_settle_succ h
      · exact ⟨_, .last hpass, rfl⟩
      · obtain ⟨ts, hpasses, hlast⟩ := ih hsettle
        refine ⟨t' :: ts, .again hpass hpasses, ?_⟩
        rw [List.getLast?_cons, hlast]
        rfl

-- Every pass over a loop elaborates it, and in all of them a variable has the
-- local that it has in the end.
theorem passes_elaborate (hctx : Answering P ctx) {cond : Expr} {body : List (Stmt Expr)}
    {m : Annotate (List TypedStmt)} (hbody : BlockElaborates P body m) {merges : List (Merge Expr)}
    {ts : List TypedStmt} (h : Passes (loopPass ctx cond m merges) locals store ts locals' later)
    (hstore : P store) :
    Proceeds P (Stmt.blockReturns body) locals store locals' later ∧
      ∀ t ∈ ts, Stmt.Elaborates (NodeTyped later) locals'.naming (.loop cond body merges) t := by
  induction h with
  | last hpass =>
      obtain ⟨hproceeds, ht⟩ := loopPass_elaborates hctx hbody hstore hpass
      exact ⟨hproceeds, by simpa using ht⟩
  | again hpass _ ih =>
      obtain ⟨hproceeds, ht⟩ := loopPass_elaborates hctx hbody hstore hpass
      obtain ⟨hproceeds', hts⟩ := ih hproceeds.kept
      refine ⟨by simpa using hproceeds.trans hproceeds', ?_⟩
      rintro t hmem
      rcases List.mem_cons.mp hmem with rfl | hmem
      · exact ht.imp hproceeds'.naming fun _ _ he => hproceeds'.carry he
      · exact hts t hmem

mutual

-- Statements elaborate one by one.
theorem stmt_elaborates (hctx : Answering P ctx) : ∀ (s : Stmt Expr) {locals locals' : Locals}
    {store later : Store} {t : TypedStmt}, P store →
      Yields (stmt ctx s) locals store t locals' later →
      Proceeds P s.returns locals store locals' later ∧
        s.Elaborates (NodeTyped later) locals'.naming t
  | .assign lhs rhs, locals, locals', store, later, t, hstore, h => by
      obtain ⟨value, _, _, slot, hvalue, htarget, rfl⟩ := yields_assign h
      obtain ⟨hadvances, hv⟩ := expr_elaborates hctx rhs hstore hvalue
      cases hadvances.locals_eq
      obtain ⟨hproceeds, hs⟩ := target_elaborates hctx lhs hadvances.kept htarget
      exact ⟨hadvances.proceeds.trans hproceeds, .assign hs (hproceeds.carry hv)⟩
  | .branch cond onTrue onFalse merges, locals, locals', store, later, t, hstore, h => by
      obtain ⟨cond', _, _, onTrue', _, _, onFalse', _, _, merges', hcond, htrue, hfalse, hmerges,
        rfl⟩ := yields_branch h
      obtain ⟨hadvances, hc⟩ := condition_elaborates hctx hstore hcond
      cases hadvances.locals_eq
      obtain ⟨hproceeds, ht⟩ := block_elaborates hctx onTrue hadvances.kept htrue
      obtain ⟨hproceeds', hf⟩ := block_elaborates hctx onFalse hproceeds.kept hfalse
      obtain ⟨hproceeds'', hm⟩ := branchMerges_elaborate hctx merges hproceeds'.kept hmerges
      have hrest := hproceeds'.trans_quiet hproceeds''
      refine ⟨hadvances.proceeds.quiet_trans (hproceeds.trans hrest), .branch ?_ ?_ ?_ hm⟩
      · exact (hproceeds.trans hrest).carry hc
      · exact hrest.carryBlock ht
      · exact hproceeds''.carryBlock hf
  | .loop cond body merges, locals, locals', store, later, t, hstore, h => by
      unfold stmt at h
      obtain ⟨ts, hpasses, hlast⟩ := settle_passes ctx.loopLimit h
      obtain ⟨hproceeds, hts⟩ :=
        passes_elaborate hctx (block_elaborates hctx body) hpasses hstore
      exact ⟨hproceeds, hts t (List.mem_of_getLast? hlast)⟩
  | .ret value, locals, locals', store, later, t, hstore, h => by
      obtain ⟨value', _, _, hvalue, hreturns, rfl⟩ := yields_ret h
      obtain ⟨hadvances, hv⟩ := expr_elaborates hctx value hstore hvalue
      cases hadvances.locals_eq
      have hproceeds := returns_proceeds hadvances.kept hreturns
      exact ⟨hadvances.proceeds.quiet_trans hproceeds, .ret (hproceeds.carry hv)⟩
  termination_by structural s => s

theorem block_elaborates (hctx : Answering P ctx) :
    ∀ body : List (Stmt Expr), BlockElaborates P body (block ctx body)
  | [], locals, locals', store, later, body', hstore, h => by
      obtain ⟨rfl, rfl, rfl⟩ := yields_block_nil h
      exact ⟨(Advances.refl hstore).proceeds, .nil⟩
  | s :: rest, locals, locals', store, later, body', hstore, h => by
      obtain ⟨t, _, _, ts, hstmt, hrest, rfl⟩ := yields_block_cons.mp h
      obtain ⟨hproceeds, ht⟩ := stmt_elaborates hctx s hstore hstmt
      obtain ⟨hproceeds', hts⟩ := block_elaborates hctx rest hproceeds.kept hrest
      refine ⟨hproceeds.trans hproceeds', .cons ?_ hts⟩
      exact ht.imp hproceeds'.naming fun _ _ he => hproceeds'.carry he
  termination_by structural body => body

end

end Annotate

end RankPoly
