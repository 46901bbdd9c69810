import RankPoly.Proofs.Leaves
import RankPoly.Proofs.Steps.Stmt
import RankPoly.Proofs.Ty.Headroom

namespace RankPoly

mutual

-- The variables that are assigned to, if a value is stored in the expression.
def Expr.assigned : Expr → List String
  | .var name => [name]
  | .tuple parts => assignedAll parts
  | _ => []
  termination_by structural lhs => lhs

def Expr.assignedAll : List Expr → List String
  | [] => []
  | part :: parts => Expr.assigned part ++ Expr.assignedAll parts
  termination_by structural parts => parts

end

mutual

-- The variables that a statement assigns to or merges, at any depth.
def Stmt.assigned : Stmt Expr → List String
  | .assign lhs _ => lhs.assigned
  | .branch _ onTrue onFalse merges =>
    assignedBlock onTrue ++ (assignedBlock onFalse ++ merges.map Merge.var)
  | .loop _ body merges => merges.map Merge.var ++ assignedBlock body
  | .ret _ => []
  termination_by structural s => s

def Stmt.assignedBlock : List (Stmt Expr) → List String
  | [] => []
  | first :: rest => Stmt.assigned first ++ Stmt.assignedBlock rest
  termination_by structural body => body

end

-- A type that others may have been joined into, one after another.
def Ty.Rises : Ty → Ty → Prop :=
  Relation.ReflTransGen fun a c => ∃ b, a.combine b = .ok c

theorem Ty.climbs_of_rises {a c : Ty} (ha : a.AllParts Plain) (h : a.Rises c) : Climbs a c := by
  induction h with
  | refl => exact .refl ha
  | tail _ hjoin ih =>
      obtain ⟨b, hjoin⟩ := hjoin
      exact ih.trans (climbs_combine _ b _ ih.plain hjoin)

namespace NameMap

variable {env env' env'' : NameMap Ty}

-- All names that are bound stay so, by types that only rise.
def Rises (env env' : NameMap Ty) : Prop :=
  ∀ ⦃name ty⦄, env.find? name = some ty → ∃ risen, env'.find? name = some risen ∧ ty.Rises risen

theorem Rises.refl (env : NameMap Ty) : env.Rises env :=
  fun _ ty h => ⟨ty, h, Relation.ReflTransGen.refl⟩

theorem Rises.trans (h : env.Rises env') (h' : env'.Rises env'') : env.Rises env'' := by
  intro name ty hty
  obtain ⟨middle, hmiddle, hrises⟩ := h hty
  obtain ⟨risen, hrisen, hrises'⟩ := h' hmiddle
  exact ⟨risen, hrisen, Relation.ReflTransGen.trans hrises hrises'⟩

theorem Rises.contains (h : env.Rises env') {name : String} (hname : env.contains name = true) :
    env'.contains name = true := by
  obtain ⟨ty, hty⟩ := contains_iff.mp hname
  obtain ⟨risen, hrisen, -⟩ := h hty
  exact contains_iff.mpr ⟨risen, hrisen⟩

-- A name that is bound already keeps its place.
theorem Sorted.keys_insert {α : Type} {map : NameMap α} (hmap : map.Sorted) {name : String}
    (hname : name ∈ map.keys) (value : α) : (map.insert name value).keys = map.keys := by
  refine List.Perm.eq_of_pairwise (fun _ _ _ _ h h' => absurd h' (String.lt_asymm h))
    (hmap.insert name value) hmap ?_
  refine (List.perm_ext_iff_of_nodup (hmap.insert name value).nodup hmap.nodup).mpr fun other => ?_
  rw [mem_keys_insert]
  exact or_iff_right_of_imp fun heq => heq ▸ hname

-- Maps that bind the same names are risen from each other entry by entry.
theorem Rises.forall₂ : ∀ {env env' : NameMap Ty}, env.keys.Nodup → env'.keys = env.keys →
    env.Rises env' → List.Forall₂ Ty.Rises (env.map Prod.snd) (env'.map Prod.snd)
  | [], env', _, hkeys, _ => by
      obtain rfl : env' = [] := List.map_eq_nil_iff.mp hkeys
      exact .nil
  | (name, ty) :: env, [], _, hkeys, _ => nomatch hkeys
  | (name, ty) :: env, (name', ty') :: env', hnodup, hsame, h => by
      obtain ⟨rfl, hkeys⟩ : name' = name ∧ keys env' = keys env := List.cons.inj hsame
      obtain ⟨hname, hrest⟩ := List.nodup_cons.mp hnodup
      refine .cons ?_ (Rises.forall₂ hrest hkeys fun other old hold => ?_)
      · obtain ⟨risen, hrisen, hrises⟩ := h (find?_cons name' name' ty env ▸ if_pos rfl)
        rw [find?_cons, if_pos rfl] at hrisen
        cases hrisen
        exact hrises
      · have hne : name' ≠ other := by
          rintro rfl
          exact hname (mem_keys_iff.mpr ⟨old, hold⟩)
        obtain ⟨risen, hrisen, hrises⟩ :=
          h (find?_cons other name' ty env ▸ (if_neg hne).trans hold)
        rw [find?_cons, if_neg hne] at hrisen
        exact ⟨risen, hrisen, hrises⟩

end NameMap

namespace Annotate

variable {ctx : Context} {locals middle locals' : Locals} {store between later : Store}

-- A variable that has a local which is bound.
def Knows (locals : Locals) (var : String) : Prop :=
  ∃ known, locals.names.find? var = some known ∧ locals.env.contains known = true

-- A run that assigns to some variables. What is known of them before stays known, and what is
-- known of types rises. A run that has been made once makes no new locals.
structure Assigns (vars : List String) (locals locals' : Locals) : Prop where
  names : ∀ ⦃var known⦄, locals.names.find? var = some known → locals'.names.find? var = some known
  rises : locals.env.Rises locals'.env
  sorted : locals.env.Sorted → locals'.env.Sorted
  knows : ∀ var ∈ vars, Knows locals' var
  keys : locals.env.Sorted → (∀ var ∈ vars, Knows locals var) → locals'.env.keys = locals.env.keys

namespace Assigns

variable {vars vars' : List String}

theorem refl (locals : Locals) : Assigns [] locals locals :=
  ⟨fun _ _ h => h, .refl _, id, nofun, fun _ _ => rfl⟩

theorem of_eq (h : locals' = locals) : Assigns [] locals locals' :=
  h ▸ refl locals

theorem knows_of (h : Assigns vars locals locals') {var : String} (hvar : Knows locals var) :
    Knows locals' var := by
  obtain ⟨known, hknown, hbound⟩ := hvar
  exact ⟨known, h.names hknown, h.rises.contains hbound⟩

theorem trans (h : Assigns vars locals middle) (h' : Assigns vars' middle locals') :
    Assigns (vars ++ vars') locals locals' where
  names _ _ hknown := h'.names (h.names hknown)
  rises := h.rises.trans h'.rises
  sorted := h'.sorted ∘ h.sorted
  knows := List.forall_mem_append.mpr ⟨fun var hvar => h'.knows_of (h.knows var hvar), h'.knows⟩
  keys hsorted hknows := by
    obtain ⟨hvars, hvars'⟩ := List.forall_mem_append.mp hknows
    have hkeys := h'.keys (h.sorted hsorted) fun var hvar => h.knows_of (hvars' var hvar)
    exact hkeys.trans (h.keys hsorted hvars)

-- Done again, a run assigns to what it has assigned to before.
theorem again (h : Assigns vars locals middle) (h' : Assigns vars middle locals') :
    Assigns vars locals locals' where
  names _ _ hknown := h'.names (h.names hknown)
  rises := h.rises.trans h'.rises
  sorted := h'.sorted ∘ h.sorted
  knows := h'.knows
  keys hsorted hknows :=
    (h'.keys (h.sorted hsorted) h.knows).trans (h.keys hsorted hknows)

end Assigns

-- Looking at the locals does not change them.
theorem reading_locals (P : Locals → Prop) (ctx : Context) :
    Reading (fun locals _ => P locals) (fun _ _ => True) ctx ctx where
  limit := rfl
  fresh _ h := h
  addWrapper _ h := h
  fails _ _ := trivial
  same _ _ _ := rfl
  invoke := by
    intro locals store callee args h
    rcases Session.outcome (ctx.invoke callee args) store with ⟨error | ty, later⟩
    · trivial
    · exact h

theorem expr_still {e : Expr} {t : TypedExpr}
    (h : Yields (expr ctx e) locals store t locals' later) : locals' = locals :=
  (expr_leaves (reading_locals (· = locals) ctx) e).yields rfl h

theorem condition_still {e : Expr} {t : TypedExpr}
    (h : Yields (condition ctx e) locals store t locals' later) : locals' = locals :=
  (condition_leaves (reading_locals (· = locals) ctx) e).yields rfl h

theorem localFor_assigns {name known : String}
    (h : Yields (localFor name) locals store known locals' later) :
    Assigns [] locals locals' ∧ locals'.names.find? name = some known ∧
      locals'.env = locals.env := by
  obtain ⟨hfound, rfl, rfl⟩ | ⟨hfree, hrename⟩ := yields_localFor.mp h
  · exact ⟨.refl locals, hfound, rfl⟩
  · obtain ⟨rfl, rfl, rfl⟩ := yields_rename.mp hrename
    exact ⟨⟨fun _ _ => NameMap.find?_insert_of_free hfree, .refl _, id, nofun, fun _ _ => rfl⟩,
      NameMap.find?_insert_self _ _ _, rfl⟩

theorem widen_rises {known : String} {ty widened : Ty}
    (h : Yields (widen known ty) locals store widened locals' later) :
    locals'.names = locals.names ∧ locals.env.Rises locals'.env ∧
      (locals.env.Sorted → locals'.env.Sorted) ∧ locals'.env.contains known = true ∧
      (locals.env.Sorted → locals.env.contains known = true →
        locals'.env.keys = locals.env.keys) := by
  obtain ⟨hjoin, rfl, rfl⟩ := yields_widen.mp h
  refine ⟨rfl, fun name old hold => ?_, fun hsorted => hsorted.insert known widened,
    NameMap.contains_iff.mpr ⟨widened, NameMap.find?_insert_self _ _ _⟩, fun hsorted hbound =>
    hsorted.keys_insert (NameMap.mem_keys_iff.mpr (NameMap.contains_iff.mp hbound)) widened⟩
  rw [NameMap.find?_insert]
  split
  · rename_i heq
    simp only [heq, hold] at hjoin
    exact ⟨widened, rfl, .single ⟨ty, hjoin⟩⟩
  · exact ⟨old, hold, .refl⟩

-- What has a type already assigns to no variable.
theorem widen_assigns {known : String} {ty widened : Ty}
    (hknown : locals.env.contains known = true)
    (h : Yields (widen known ty) locals store widened locals' later) :
    Assigns [] locals locals' := by
  obtain ⟨hnames, hrises, hsorted, -, hkeys⟩ := widen_rises h
  exact ⟨fun _ _ hlocal => hnames ▸ hlocal, hrises, hsorted, nofun, fun hs _ => hkeys hs hknown⟩

-- A variable gets a local, and a type that is joined into that of the local.
theorem bind_assigns {name known : String} {ty widened : Ty}
    (hlocal : Yields (localFor name) locals store known middle between)
    (h : Yields (widen known ty) middle between widened locals' later) :
    Assigns [name] locals locals' ∧ locals'.env.contains known = true := by
  obtain ⟨hassigns, hknown, henv⟩ := localFor_assigns hlocal
  obtain ⟨hnames, hrises, hsorted, hbound, hkeys⟩ := widen_rises h
  refine ⟨⟨fun var local' hlocal' => hnames ▸ hassigns.names hlocal', henv ▸ hrises,
    henv ▸ hsorted, ?_, fun hs hknows => ?_⟩, hbound⟩
  · exact List.forall_mem_singleton.mpr ⟨known, hnames ▸ hknown, hbound⟩
  · obtain ⟨found, hfound, hfoundBound⟩ := List.forall_mem_singleton.mp hknows
    cases (hassigns.names hfound).symm.trans hknown
    rw [henv] at hkeys
    exact hkeys hs hfoundBound

mutual

theorem target_assigns : ∀ (lhs : Expr) {rhs : Ty} {locals locals' : Locals}
    {store later : Store} {t : TypedExpr},
    Yields (target ctx lhs rhs) locals store t locals' later →
    Assigns lhs.assigned locals locals'
  | .var name, rhs, locals, locals', store, later, t, h => by
      obtain ⟨known, _, _, ty, hlocal, hwiden, rfl⟩ := yields_target_var h
      exact (bind_assigns hlocal hwiden).1
  | .tuple parts, rhs, locals, locals', store, later, t, h => by
      obtain ⟨elems, parts', rfl, hlength, htargets, rfl⟩ := yields_target_tuple h
      exact targets_assign parts hlength htargets
  | .index value selector, rhs, locals, locals', store, later, t, h => by
      obtain ⟨value', _, _, selector', _, _, hvalue, -, hselector, hinto⟩ := yields_target_index h
      obtain ⟨slot, -, -, rfl, -⟩ := yields_storeInto hinto
      exact .of_eq ((expr_still hselector).trans (expr_still hvalue))
  | .attribute value name, rhs, locals, locals', store, later, t, h => by
      obtain ⟨value', field, _, hvalue, -⟩ := yields_target_attribute h
      exact .of_eq (expr_still hvalue)
  | .const _, _, _, _, _, _, _, h | .array _, _, _, _, _, _, _, h
  | .slice .., _, _, _, _, _, _, h | .prim .., _, _, _, _, _, _, h
  | .closure .., _, _, _, _, _, _, h | .invoke .., _, _, _, _, _, _, h
  | .map .., _, _, _, _, _, _, h | .fold .., _, _, _, _, _, _, h
  | .allPairs .., _, _, _, _, _, _, h => by
      unfold target at h
      exact (yields_throw h).elim
  termination_by structural lhs => lhs

theorem targets_assign : ∀ (parts : List Expr) {elems : List Ty} {locals locals' : Locals}
    {store later : Store} {ts : List TypedExpr}, elems.length = parts.length →
    Yields (targets ctx parts elems) locals store ts locals' later →
    Assigns (Expr.assignedAll parts) locals locals'
  | [], [], locals, locals', store, later, ts, _, h => by
      obtain ⟨-, rfl, -⟩ := yields_targets_nil h
      exact .refl locals
  | part :: parts, elem :: elems, locals, locals', store, later, ts, hlength, h => by
      obtain ⟨t, _, _, ts, htarget, htargets, rfl⟩ := yields_targets_cons h
      exact (target_assigns part htarget).trans
        (targets_assign parts (Nat.succ.inj hlength) htargets)
  termination_by structural parts => parts

end

theorem branchMerges_assign : ∀ (merges : List (Merge Expr)) {locals locals' : Locals}
    {store later : Store} {merges' : List (Merge TypedExpr)},
    Yields (branchMerges ctx merges) locals store merges' locals' later →
    Assigns (merges.map Merge.var) locals locals'
  | [], locals, locals', store, later, merges', h => by
      obtain ⟨rfl, rfl, rfl⟩ := yields_branchMerges_nil h
      exact .refl locals
  | merge :: merges, locals, locals', store, later, merges', h => by
      obtain ⟨left, _, _, right, _, _, var, _, _, both, _, _, _, rest, hleft, hright, hlocal, -,
        hwiden, hrest, rfl⟩ := yields_branchMerges_cons h
      cases expr_still hleft
      cases expr_still hright
      exact (bind_assigns hlocal hwiden).1.trans (branchMerges_assign merges hrest)

-- All values that enter a loop are those of locals that are bound.
theorem enterLoop_assigns : ∀ (merges : List (Merge Expr)) {locals locals' : Locals}
    {store later : Store} {entries : List (String × TypedExpr)},
    Yields (enterLoop ctx merges) locals store entries locals' later →
    Assigns (merges.map Merge.var) locals locals' ∧
      ∀ entry ∈ entries, locals'.env.contains entry.1 = true
  | [], locals, locals', store, later, entries, h => by
      obtain ⟨rfl, rfl, rfl⟩ := yields_enterLoop_nil h
      exact ⟨.refl locals, nofun⟩
  | merge :: merges, locals, locals', store, later, entries, h => by
      obtain ⟨left, _, _, var, _, _, _, _, _, rest, hleft, hlocal, hwiden, hrest, rfl⟩ :=
        yields_enterLoop_cons h
      cases expr_still hleft
      obtain ⟨hassigns, hbound⟩ := bind_assigns hlocal hwiden
      obtain ⟨hassigns', hentries⟩ := enterLoop_assigns merges hrest
      exact ⟨hassigns.trans hassigns',
        List.forall_mem_cons.mpr ⟨hassigns'.rises.contains hbound, hentries⟩⟩

theorem closeLoop_assigns : ∀ (merges : List (Merge Expr)) {entries : List (String × TypedExpr)}
    {locals locals' : Locals} {store later : Store} {merges' : List (Merge TypedExpr)},
    (∀ entry ∈ entries, locals.env.contains entry.1 = true) →
    Yields (closeLoop ctx merges entries) locals store merges' locals' later →
    Assigns [] locals locals'
  | [], entries, locals, locals', store, later, merges', _, h
  | _ :: _, [], locals, locals', store, later, merges', _, h => by
      obtain ⟨-, rfl, -⟩ := yields_closeLoop_nil (by simp) h
      exact .refl locals
  | merge :: merges, (var, left) :: entries, locals, locals', store, later, merges', hentries, h => by
      obtain ⟨right, _, _, new, _, _, rest, hright, hwiden, hrest, rfl⟩ := yields_closeLoop_cons h
      obtain ⟨hvar, hentries⟩ := List.forall_mem_cons.mp hentries
      cases expr_still hright
      have hassigns := widen_assigns hvar hwiden
      exact hassigns.trans (closeLoop_assigns merges
        (fun entry hentry => hassigns.rises.contains (hentries entry hentry)) hrest)

-- Work that assigns to some variables wherever it is done.
def Assigning {α : Type} (vars : List String) (m : Annotate α) : Prop :=
  ∀ ⦃locals locals' : Locals⦄ ⦃store later : Store⦄ ⦃a : α⦄,
    Yields m locals store a locals' later → Assigns vars locals locals'

-- From when all values have entered it, a pass over a loop is settled by what the types rise
-- to.
theorem loopPass_assigns {vars : List String} {cond : Expr} {m : Annotate (List TypedStmt)}
    (hbody : Assigning vars m) {merges : List (Merge Expr)} {t : TypedStmt} {settled : Bool}
    (h : Yields (loopPass ctx cond m merges) locals store (t, settled) locals' later) :
    ∃ entered, Assigns (merges.map Merge.var) locals entered ∧ Assigns vars entered locals' ∧
      settled = entered.env.extendedBy locals'.env := by
  obtain ⟨entries, entered, _, cond', _, _, body', _, _, merges', henter, hcond, hblock, hclose, -,
    rfl⟩ := yields_loopPass h
  obtain ⟨henters, hentries⟩ := enterLoop_assigns merges henter
  cases condition_still hcond
  have hassigns := hbody hblock
  have hcloses := closeLoop_assigns merges
    (fun entry hentry => hassigns.rises.contains (hentries entry hentry)) hclose
  have hwhole := hassigns.trans hcloses
  rw [List.append_nil] at hwhole
  exact ⟨entered, henters, hwhole, rfl⟩

theorem settle_assigns {vars : List String} {pass : Annotate (TypedStmt × Bool)}
    (hpass : Assigning vars pass) (limit : Nat) :
    ∀ left : Nat, Assigning vars (settle limit pass left)
  | 0, _, _, _, _, _, h => (yields_throw h).elim
  | left + 1, locals, locals', store, later, t, h => by
      obtain hlast | ⟨t', middle, between, hfirst, hsettle⟩ := yields_settle_succ h
      · exact hpass hlast
      · exact (hpass hfirst).again (settle_assigns hpass limit left hsettle)

mutual

theorem stmt_assigns (ctx : Context) : ∀ s : Stmt Expr, Assigning s.assigned (stmt ctx s)
  | .assign lhs rhs, locals, locals', store, later, t, h => by
      obtain ⟨value, _, _, slot, hvalue, htarget, rfl⟩ := yields_assign h
      cases expr_still hvalue
      exact target_assigns lhs htarget
  | .branch cond onTrue onFalse merges, locals, locals', store, later, t, h => by
      obtain ⟨cond', _, _, onTrue', _, _, onFalse', _, _, merges', hcond, htrue, hfalse, hmerges,
        rfl⟩ := yields_branch h
      cases condition_still hcond
      have hfirst := block_assigns ctx onTrue htrue
      have hsecond := block_assigns ctx onFalse hfalse
      exact hfirst.trans (hsecond.trans (branchMerges_assign merges hmerges))
  | .loop cond body merges, locals, locals', store, later, t, h => by
      unfold stmt at h
      refine settle_assigns (fun start last before after result hpass => ?_) _ _ h
      obtain ⟨entered, henters, hassigns, -⟩ := loopPass_assigns (block_assigns ctx body) hpass
      exact henters.trans hassigns
  | .ret value, locals, locals', store, later, t, h => by
      obtain ⟨value', _, _, hvalue, hreturns, rfl⟩ := yields_ret h
      cases expr_still hvalue
      obtain ⟨widened, -, rfl, rfl⟩ := yields_returns.mp hreturns
      exact ⟨fun _ _ h => h, .refl _, id, nofun, fun _ _ => rfl⟩
  termination_by structural s => s

theorem block_assigns (ctx : Context) : ∀ body : List (Stmt Expr),
    Assigning (Stmt.assignedBlock body) (block ctx body)
  | [], locals, locals', store, later, body', h => by
      obtain ⟨rfl, rfl, rfl⟩ := yields_block_nil h
      exact .refl locals
  | s :: rest, locals, locals', store, later, body', h => by
      obtain ⟨t, _, _, ts, hstmt, hrest, rfl⟩ := yields_block_cons.mp h
      exact (stmt_assigns ctx s hstmt).trans (block_assigns ctx rest hrest)
  termination_by structural body => body

end

end Annotate

end RankPoly
