import RankPoly.Proofs.Flow.Assigned
import RankPoly.Proofs.Known
import RankPoly.Proofs.Scope.Run

namespace RankPoly

open Access
open Ty (AllParts Known)

namespace Access

variable {known known' : List String} {accesses first second : List Access} {var : String}

-- A variable is read, and has not been bound by then.
def Missing (known : List String) (accesses : List Access) (var : String) : Prop :=
  ∃ earlier, Reads accesses earlier var ∧ var ∉ known ++ bound earlier

theorem missing_reads {vars : List String} (hvar : var ∈ vars) (hknown : var ∉ known)
    (rest : List Access) : Missing known (.reads vars :: rest) var :=
  ⟨[], reads_cons.mpr (Or.inl ⟨rfl, vars, rfl, hvar⟩), by simpa using hknown⟩

theorem Missing.later {vars : List String} (h : Missing known accesses var) :
    Missing known (.reads vars :: accesses) var := by
  obtain ⟨earlier, hread, hvar⟩ := h
  exact ⟨.reads vars :: earlier, reads_cons.mpr (Or.inr ⟨earlier, rfl, hread⟩), by simpa using hvar⟩

theorem Missing.left (h : Missing known first var) : Missing known (first ++ second) var := by
  obtain ⟨earlier, hread, hvar⟩ := h
  exact ⟨earlier, reads_append.mpr (Or.inl hread), hvar⟩

theorem Missing.right (h : Missing (known ++ bound first) second var) :
    Missing known (first ++ second) var := by
  obtain ⟨earlier, hread, hvar⟩ := h
  refine ⟨first ++ earlier, reads_append.mpr (Or.inr ⟨earlier, rfl, hread⟩), ?_⟩
  rwa [bound_append, ← List.append_assoc]

theorem Missing.weaken (h : Missing known accesses var) (hknown : known' ⊆ known) :
    Missing known' accesses var := by
  obtain ⟨earlier, hread, hvar⟩ := h
  refine ⟨earlier, hread, fun hmem => hvar ?_⟩
  rcases List.mem_append.mp hmem with hmem | hmem
  · exact List.mem_append_left _ (hknown hmem)
  · exact List.mem_append_right _ hmem

end Access

-- The variables that are bound are those that are assigned to.
mutual

theorem Expr.bound_storing : ∀ lhs : Expr, bound lhs.storing = lhs.assigned
  | .var _ => rfl
  | .tuple parts => Expr.bound_storingAll parts
  | .const _ | .array _ | .index .. | .slice .. | .attribute .. | .prim .. | .closure ..
  | .invoke .. | .map .. | .fold .. | .allPairs .. => rfl
  termination_by structural lhs => lhs

theorem Expr.bound_storingAll : ∀ parts : List Expr,
    bound (Expr.storingAll parts) = Expr.assignedAll parts
  | [] => rfl
  | part :: parts => by
      simp only [Expr.storingAll, Expr.assignedAll, bound_append, Expr.bound_storing part,
        Expr.bound_storingAll parts]
  termination_by structural parts => parts

end

theorem Merge.bound_accesses (merges : List (Merge Expr)) :
    bound (merges.flatMap Merge.accesses) = merges.map Merge.var := by
  induction merges with
  | nil => rfl
  | cons merge merges ih => simp [Merge.accesses, ih]

theorem Merge.bound_entering (merges : List (Merge Expr)) :
    bound (merges.flatMap Merge.entering) = merges.map Merge.var := by
  induction merges with
  | nil => rfl
  | cons merge merges ih => simp [Merge.entering, ih]

theorem Merge.bound_closing (merges : List (Merge Expr)) :
    bound (merges.map Merge.closing) = [] := by
  induction merges with
  | nil => rfl
  | cons merge merges ih => simp [Merge.closing, ih]

mutual

theorem Stmt.bound_accesses : ∀ s : Stmt Expr, bound s.accesses = s.assigned
  | .assign lhs _ => lhs.bound_storing
  | .branch _ onTrue onFalse merges => by
      simp [Stmt.accesses, Stmt.assigned, Stmt.bound_accessesBlock onTrue,
        Stmt.bound_accessesBlock onFalse, Merge.bound_accesses]
  | .loop _ body merges => by
      simp [Stmt.accesses, Stmt.assigned, Stmt.bound_accessesBlock body, Merge.bound_entering,
        Merge.bound_closing]
  | .ret _ => rfl
  termination_by structural s => s

theorem Stmt.bound_accessesBlock : ∀ body : List (Stmt Expr),
    bound (Stmt.accessesBlock body) = Stmt.assignedBlock body
  | [] => rfl
  | first :: rest => by
      simp only [Stmt.accessesBlock, Stmt.assignedBlock, bound_append, Stmt.bound_accesses first,
        Stmt.bound_accessesBlock rest]
  termination_by structural body => body

end

namespace Annotate

variable {α β : Type} {P : Store → Prop} {ctx : Context} {locals locals' : Locals}
  {store later : Store} {name : String} {known : List String}

-- Work that fails because it does not find a variable.
def Misses {α : Type} (m : Annotate α) (locals : Locals) (store : Store) (name : String) : Prop :=
  ∃ later, outcome m locals store = (.error (.unboundName name), later)

theorem misses_bind {m : Annotate α} {k : α → Annotate β} :
    Misses (m >>= k) locals store name ↔
      Misses m locals store name ∨
        ∃ a middle between, Yields m locals store a middle between ∧
          Misses (k a) middle between name := by
  unfold Misses Yields
  rw [outcome_bind]
  rcases outcome m locals store with ⟨error | ⟨a, middle⟩, between⟩ <;> simp

theorem misses_get : ¬Misses get locals store name :=
  nofun

theorem Steady.not_misses {m : Annotate α} (h : Steady m) : ¬Misses m locals store name := by
  rintro ⟨later, houtcome⟩
  rcases h with ⟨a, rfl⟩ | ⟨error, herror, rfl⟩ <;> cases houtcome
  exact herror name rfl

theorem not_misses_pure {a : α} : ¬Misses (pure a) locals store name :=
  Steady.not_misses (.pure a)

theorem not_misses_ofTy {result : Except TyError α} : ¬Misses (ofTy result) locals store name :=
  Steady.not_misses (.ofTy result)

theorem not_misses_require {condition : Bool} {reason : ShapeError} :
    ¬Misses (require condition reason) locals store name :=
  Steady.not_misses (.require condition reason)

theorem Looks.missing {vars : List String} {m : Annotate α} (h : Looks vars m)
    (hmisses : Misses m locals store name) : name ∈ vars ∧ ¬locals.Finds name := by
  obtain ⟨later, houtcome⟩ := hmisses
  have hfailed := h locals store
  rw [houtcome] at hfailed
  exact hfailed name rfl

-- What reads no variables does not miss any.
theorem Performs.not_misses {accesses : List Access} {m : Annotate α} (h : Performs accesses m)
    (hreads : ∀ {earlier var}, ¬Reads accesses earlier var) : ¬Misses m locals store name := by
  rintro ⟨later, houtcome⟩
  have hfailed := h locals.names.keys locals store fun var hvar =>
    NameMap.mem_keys_iff.mpr (NameMap.contains_iff.mp hvar)
  rw [houtcome] at hfailed
  obtain ⟨earlier, hread, -⟩ := hfailed name rfl
  exact hreads hread

theorem not_misses_localFor {var : String} : ¬Misses (localFor var) locals store name :=
  (Performs.localFor var).not_misses (by simp [reads_cons, not_reads_nil])

theorem not_misses_widen {var : String} {ty : Ty} : ¬Misses (widen var ty) locals store name :=
  (Performs.widen var ty).not_misses not_reads_nil

theorem not_misses_refresh {var : String} :
    ¬Misses (liftM (Session.refresh var)) locals store name :=
  (Performs.refresh var).not_misses not_reads_nil

theorem not_misses_bindParams {params : List (String × Ty)} :
    ¬Misses (bindParams params) locals store name :=
  (bindParams_performs params).not_misses not_reads_binds

theorem not_misses_returns {ty : Ty} : ¬Misses (returns ty) locals store name :=
  (Performs.returns ty).not_misses not_reads_nil

-- What is in scope has types that are known, so that it is found.
structure Covers (P : Store → Prop) (known : List String) (locals : Locals) (store : Store) :
    Prop where
  held : Held Known (AllParts Known) P locals store
  knows : ∀ var ∈ known, Knows locals var

namespace Covers

theorem finds (h : Covers P known locals store) {var : String} (hvar : var ∈ known) :
    locals.Finds var := by
  obtain ⟨found, hfound, hbound⟩ := h.knows var hvar
  obtain ⟨ty, hty⟩ := NameMap.contains_iff.mp hbound
  exact ⟨found, ty, hfound, hty, (h.held.env hty).self.1⟩

-- What has been found once is still found later, and so are the variables that were assigned to
-- meanwhile.
theorem step (h : Covers P known locals store) {accesses : List Access} {vars : List String}
    (hheld : Held Known (AllParts Known) P locals' later) (hassigns : Assigns vars locals locals')
    (hbound : bound accesses = vars) : Covers P (known ++ bound accesses) locals' later := by
  refine ⟨hheld, List.forall_mem_append.mpr ⟨fun var hvar => ?_, ?_⟩⟩
  · exact hassigns.knows_of (h.knows var hvar)
  · exact hbound ▸ hassigns.knows

theorem missing_of_looks (h : Covers P known locals store) {vars : List String} {m : Annotate α}
    (hlooks : Looks vars m) (hmisses : Misses m locals store name) (rest : List Access) :
    Missing known (.reads vars :: rest) name := by
  obtain ⟨hvar, hnot⟩ := hlooks.missing hmisses
  exact missing_reads hvar (fun hmem => hnot (h.finds hmem)) rest

end Covers

-- A run that misses a variable has come to values up to some point. What covers the variables
-- that have been bound by then is carried along, and the variable is not one of them.
mutual

theorem target_misses (hctx : ctx.Sealed) (hflow : Flowing Known (AllParts Known) P ctx) :
    ∀ (lhs : Expr) {rhs : Ty} {known : List String} {locals : Locals} {store : Store},
      AllParts Known rhs → Covers P known locals store →
      Misses (target ctx lhs rhs) locals store name → Missing known lhs.storing name
  | .var var, rhs, known, locals, store, _, _, h => by
      simp only [target, misses_bind, not_misses_localFor, not_misses_widen, not_misses_pure,
        and_false, exists_false, or_false] at h
  | .tuple parts, rhs, known, locals, store, hrhs, hcovers, h => by
      unfold target at h
      split at h
      · simp only [misses_bind, not_misses_require, not_misses_pure, yields_require, false_or,
          and_false, exists_false, or_false, decide_eq_true_eq] at h
        obtain ⟨_, _, _, ⟨hlength, rfl, rfl⟩, h⟩ := h
        exact targets_miss hctx hflow parts hlength (Ty.allParts_tuple.mp hrhs).2 hcovers h
      · obtain ⟨_, ⟨⟩⟩ := h
  | .index .., _, _, _, _, _, hcovers, h | .attribute .., _, _, _, _, _, hcovers, h
  | .const _, _, _, _, _, _, hcovers, h | .array _, _, _, _, _, _, hcovers, h
  | .slice .., _, _, _, _, _, hcovers, h | .prim .., _, _, _, _, _, hcovers, h
  | .closure .., _, _, _, _, _, hcovers, h | .invoke .., _, _, _, _, _, hcovers, h
  | .map .., _, _, _, _, _, hcovers, h | .fold .., _, _, _, _, _, hcovers, h
  | .allPairs .., _, _, _, _, _, hcovers, h =>
      hcovers.missing_of_looks (target_looks hctx _ _ (by simp) (by simp)) h []
  termination_by structural lhs => lhs

theorem targets_miss (hctx : ctx.Sealed) (hflow : Flowing Known (AllParts Known) P ctx) :
    ∀ (parts : List Expr) {elems : List Ty} {known : List String} {locals : Locals} {store : Store},
      elems.length = parts.length → (∀ elem ∈ elems, AllParts Known elem) →
      Covers P known locals store → Misses (targets ctx parts elems) locals store name →
      Missing known (Expr.storingAll parts) name
  | [], [], known, locals, store, _, _, _, h => by
      unfold targets at h
      exact (not_misses_pure h).elim
  | part :: parts, elem :: elems, known, locals, store, hlength, helems, hcovers, h => by
      obtain ⟨helem, helems⟩ := List.forall_mem_cons.mp helems
      simp only [targets, misses_bind, not_misses_pure, and_false, exists_false, or_false] at h
      rcases h with h | ⟨_, _, _, hpart, h⟩
      · exact (target_misses hctx hflow part helem hcovers h).left
      · have hmoves := (target_flows hflow part helem hcovers.held hpart).1
        have hafter := hcovers.step hmoves.held (target_assigns part hpart) part.bound_storing
        exact (targets_miss hctx hflow parts (Nat.succ.inj hlength) helems hafter h).right
  termination_by structural parts => parts

end

theorem Covers.expr (h : Covers P known locals store)
    (hflow : Flowing Known (AllParts Known) P ctx) {e : Expr} {t : TypedExpr}
    (hyields : Yields (expr ctx e) locals store t locals' later) :
    locals' = locals ∧ Covers P known locals later ∧ AllParts Known t.ty := by
  obtain ⟨hadvances, hreads⟩ := expr_flows hflow e h.held hyields
  cases hadvances.locals_eq
  exact ⟨rfl, ⟨h.held.advance hadvances, h.knows⟩, hreads.ty⟩

theorem Covers.condition (h : Covers P known locals store)
    (hflow : Flowing Known (AllParts Known) P ctx) {e : Expr} {t : TypedExpr}
    (hyields : Yields (condition ctx e) locals store t locals' later) :
    locals' = locals ∧ Covers P known locals later := by
  obtain ⟨hadvances, -⟩ := condition_flows hflow h.held hyields
  cases hadvances.locals_eq
  exact ⟨rfl, ⟨h.held.advance hadvances, h.knows⟩⟩

theorem Covers.block (h : Covers P known locals store)
    (hflow : Flowing Known (AllParts Known) P ctx) {body : List (Stmt Expr)}
    {body' : List TypedStmt} (hyields : Yields (block ctx body) locals store body' locals' later) :
    Covers P (known ++ bound (Stmt.accessesBlock body)) locals' later :=
  h.step (block_flows hflow body h.held hyields).1.held (block_assigns ctx body hyields)
    (Stmt.bound_accessesBlock body)

-- A variable that gets a type is found from then on.
theorem Covers.bind (h : Covers P known locals store)
    (hflow : Flowing Known (AllParts Known) P ctx) {var found : String} {ty widened : Ty}
    (hty : AllParts Known ty) {middle : Locals} {between : Store}
    (hlocal : Yields (localFor var) locals store found middle between)
    (hwiden : Yields (widen found ty) middle between widened locals' later) :
    Covers P (known ++ [var]) locals' later := by
  have hmoves := (bind_moves hflow hty h.held hlocal hwiden).1
  have hbound : Access.bound [.binds var] = [var] := rfl
  exact h.step hmoves.held (bind_assigns hlocal hwiden).1 hbound

theorem branchMerges_miss (hctx : ctx.Sealed) (hflow : Flowing Known (AllParts Known) P ctx) :
    ∀ (merges : List (Merge Expr)) {known : List String} {locals : Locals} {store : Store},
      Covers P known locals store → Misses (branchMerges ctx merges) locals store name →
      Missing known (merges.flatMap Merge.accesses) name
  | [], known, locals, store, _, h => by
      unfold branchMerges at h
      exact (not_misses_pure h).elim
  | merge :: merges, known, locals, store, hcovers, h => by
      simp only [branchMerges, misses_bind, not_misses_localFor, not_misses_ofTy,
        not_misses_widen, not_misses_pure, yields_ofTy, false_or, and_false, exists_false,
        or_false] at h
      rcases h with h | ⟨left, _, _, hleft, h | ⟨right, _, _, hright, var, _, _, hlocal, both, _, _,
        ⟨hboth, rfl, rfl⟩, _, _, _, hwiden, h⟩⟩
      · exact hcovers.missing_of_looks (expr_looks hctx merge.left) h _
      · obtain ⟨rfl, hcovers, -⟩ := hcovers.expr hflow hleft
        exact (hcovers.missing_of_looks (expr_looks hctx merge.right) h _).later
      · obtain ⟨rfl, hcovers, hl⟩ := hcovers.expr hflow hleft
        obtain ⟨rfl, hcovers, hr⟩ := hcovers.expr hflow hright
        have hafter := hcovers.bind hflow (Ty.stable_known.combine hboth hl hr) hlocal hwiden
        have hrest : Missing known ([.binds merge.var] ++ merges.flatMap Merge.accesses) name :=
          (branchMerges_miss hctx hflow merges hafter h).right
        exact hrest.later.later

theorem enterLoop_misses (hctx : ctx.Sealed) (hflow : Flowing Known (AllParts Known) P ctx) :
    ∀ (merges : List (Merge Expr)) {known : List String} {locals : Locals} {store : Store},
      Covers P known locals store → Misses (enterLoop ctx merges) locals store name →
      Missing known (merges.flatMap Merge.entering) name
  | [], known, locals, store, _, h => by
      unfold enterLoop at h
      exact (not_misses_pure h).elim
  | merge :: merges, known, locals, store, hcovers, h => by
      simp only [enterLoop, misses_bind, not_misses_localFor, not_misses_widen, not_misses_pure,
        false_or, and_false, exists_false, or_false] at h
      rcases h with h | ⟨left, _, _, hleft, var, _, _, hlocal, _, _, _, hwiden, h⟩
      · exact hcovers.missing_of_looks (expr_looks hctx merge.left) h _
      · obtain ⟨rfl, hcovers, hl⟩ := hcovers.expr hflow hleft
        have hafter := hcovers.bind hflow hl hlocal hwiden
        have hrest : Missing known ([.binds merge.var] ++ merges.flatMap Merge.entering) name :=
          (enterLoop_misses hctx hflow merges hafter h).right
        exact hrest.later

theorem closeLoop_misses (hctx : ctx.Sealed) (hflow : Flowing Known (AllParts Known) P ctx) :
    ∀ (merges : List (Merge Expr)) {entries : List (String × TypedExpr)} {known : List String}
      {locals : Locals} {store : Store}, (∀ entry ∈ entries, locals.env.contains entry.1 = true) →
      Covers P known locals store → Misses (closeLoop ctx merges entries) locals store name →
      Missing known (merges.map Merge.closing) name
  | [], _, known, locals, store, _, _, h | _ :: _, [], known, locals, store, _, _, h => by
      unfold closeLoop at h
      exact (not_misses_pure h).elim
  | merge :: merges, (var, left) :: entries, known, locals, store, hentries, hcovers, h => by
      obtain ⟨hvar, hentries⟩ := List.forall_mem_cons.mp hentries
      simp only [closeLoop, misses_bind, not_misses_widen, not_misses_pure, false_or, and_false,
        exists_false, or_false] at h
      rcases h with h | ⟨right, _, _, hright, _, _, _, hwiden, h⟩
      · exact hcovers.missing_of_looks (expr_looks hctx merge.right) h _
      · obtain ⟨rfl, hcovers, hr⟩ := hcovers.expr hflow hright
        have hassigns := widen_assigns hvar hwiden
        have hheld := (widen_moves hflow.regime hr hcovers.held hwiden).1.held
        have hafter := hcovers.step hheld hassigns bound_nil
        have hrest := closeLoop_misses hctx hflow merges
          (fun entry hentry => hassigns.rises.contains (hentries entry hentry)) hafter h
        exact Missing.later (hrest.weaken (by simp))

theorem loopPass_misses (hctx : ctx.Sealed) (hflow : Flowing Known (AllParts Known) P ctx)
    {cond : Expr} {body : List (Stmt Expr)} {merges : List (Merge Expr)}
    (hbody : ∀ {known locals store}, Covers P known locals store →
      Misses (block ctx body) locals store name → Missing known (Stmt.accessesBlock body) name)
    (hcovers : Covers P known locals store)
    (h : Misses (loopPass ctx cond (block ctx body) merges) locals store name) :
    Missing known (Stmt.loop cond body merges).accesses name := by
  simp only [loopPass, misses_bind, misses_get, not_misses_pure, yields_get, false_or, and_false,
    exists_false, or_false] at h
  unfold Stmt.accesses
  rcases h with h | ⟨entries, entered, _, henter, _, _, _, ⟨rfl, rfl, rfl⟩, h⟩
  · exact (enterLoop_misses hctx hflow merges hcovers h).left
  obtain ⟨henters, hbound⟩ := enterLoop_assigns merges henter
  have hheld := (enterLoop_flows hflow merges hcovers.held henter).1.held
  have hentered := hcovers.step hheld henters (Merge.bound_entering merges)
  refine Missing.right ?_
  rcases h with h | ⟨_, _, _, hcond, h⟩
  · exact hentered.missing_of_looks (condition_looks hctx cond) h _
  obtain ⟨rfl, hentered⟩ := hentered.condition hflow hcond
  refine Missing.later ?_
  rcases h with h | ⟨_, _, _, hblock, h⟩
  · exact (hbody hentered h).left
  have hheld := (block_flows hflow body hentered.held hblock).1.held
  have hassigns := block_assigns ctx body hblock
  have hafter := hentered.step hheld hassigns (Stmt.bound_accessesBlock body)
  exact (closeLoop_misses hctx hflow merges
    (fun entry hentry => hassigns.rises.contains (hbound entry hentry)) hafter h).right

-- What is found at first is found in each pass.
theorem settle_misses {pass : Annotate (TypedStmt × Bool)} {accesses : List Access}
    (hpass : ∀ {locals store}, Covers P known locals store → Misses pass locals store name →
      Missing known accesses name)
    (hafter : ∀ {locals store locals' later t}, Covers P known locals store →
      Yields pass locals store (t, false) locals' later → Covers P known locals' later)
    (limit : Nat) : ∀ (left : Nat) {locals : Locals} {store : Store}, Covers P known locals store →
      Misses (settle limit pass left) locals store name → Missing known accesses name
  | 0, _, _, _, h => by
      obtain ⟨_, ⟨⟩⟩ := h
  | left + 1, locals, store, hcovers, h => by
      unfold settle at h
      rcases misses_bind.mp h with h | ⟨⟨t, settled⟩, middle, between, hyields, h⟩
      · exact hpass hcovers h
      · cases settled with
        | true => exact (not_misses_pure h).elim
        | false => exact settle_misses hpass hafter limit left (hafter hcovers hyields) h

mutual

theorem stmt_misses (hctx : ctx.Sealed) (hflow : Flowing Known (AllParts Known) P ctx) :
    ∀ (s : Stmt Expr) {known : List String} {locals : Locals} {store : Store},
      Covers P known locals store → Misses (stmt ctx s) locals store name →
      Missing known s.accesses name
  | .assign lhs rhs, known, locals, store, hcovers, h => by
      simp only [stmt, misses_bind, not_misses_pure, and_false, exists_false, or_false] at h
      rcases h with h | ⟨value, _, _, hvalue, h⟩
      · exact hcovers.missing_of_looks (expr_looks hctx rhs) h _
      · obtain ⟨rfl, hcovers, hty⟩ := hcovers.expr hflow hvalue
        exact (target_misses hctx hflow lhs hty hcovers h).later
  | .branch cond onTrue onFalse merges, known, locals, store, hcovers, h => by
      simp only [stmt, misses_bind, not_misses_pure, and_false, exists_false, or_false] at h
      unfold Stmt.accesses
      rcases h with h | ⟨_, _, _, hcond, h⟩
      · exact hcovers.missing_of_looks (condition_looks hctx cond) h _
      obtain ⟨rfl, hcovers⟩ := hcovers.condition hflow hcond
      refine Missing.later ?_
      rw [List.append_assoc]
      rcases h with h | ⟨_, _, _, htrue, h⟩
      · exact (block_misses hctx hflow onTrue hcovers h).left
      have htrue' := hcovers.block hflow htrue
      refine Missing.right ?_
      rcases h with h | ⟨_, _, _, hfalse, h⟩
      · exact (block_misses hctx hflow onFalse htrue' h).left
      · exact (branchMerges_miss hctx hflow merges (htrue'.block hflow hfalse) h).right
  | .loop cond body merges, known, locals, store, hcovers, h => by
      unfold stmt at h
      refine settle_misses (loopPass_misses hctx hflow (block_misses hctx hflow body))
        (fun hcovers hpass => ⟨?_, fun var hvar => ?_⟩) _ _ hcovers h
      · exact (loopPass_flows hflow (block_flows hflow body) hcovers.held hpass).1.held
      · obtain ⟨_, henters, hassigns, -⟩ := loopPass_assigns (block_assigns ctx body) hpass
        exact (henters.trans hassigns).knows_of (hcovers.knows var hvar)
  | .ret value, known, locals, store, hcovers, h => by
      simp only [stmt, misses_bind, not_misses_returns, not_misses_pure, and_false, exists_false,
        or_false] at h
      exact hcovers.missing_of_looks (expr_looks hctx value) h []
  termination_by structural s => s

theorem block_misses (hctx : ctx.Sealed) (hflow : Flowing Known (AllParts Known) P ctx) :
    ∀ (body : List (Stmt Expr)) {known : List String} {locals : Locals} {store : Store},
      Covers P known locals store → Misses (block ctx body) locals store name →
      Missing known (Stmt.accessesBlock body) name
  | [], known, locals, store, _, h => by
      unfold block at h
      exact (not_misses_pure h).elim
  | first :: rest, known, locals, store, hcovers, h => by
      simp only [block, misses_bind, not_misses_pure, and_false, exists_false, or_false] at h
      rcases h with h | ⟨_, _, _, hfirst, h⟩
      · exact (stmt_misses hctx hflow first hcovers h).left
      · have hheld := (stmt_flows hflow first hcovers.held hfirst).1.held
        have hafter := hcovers.step hheld (stmt_assigns ctx first hfirst) first.bound_accesses
        exact (block_misses hctx hflow rest hafter h).right
  termination_by structural body => body

end

theorem bindParams_covers (hflow : Flowing Known (AllParts Known) P ctx) :
    ∀ (params : List (String × Ty)) {known : List String} {locals locals' : Locals}
      {store later : Store} {u : Unit}, (∀ param ∈ params, AllParts Known param.2) →
      Covers P known locals store → Yields (bindParams params) locals store u locals' later →
      Covers P (known ++ params.map Prod.fst) locals' later
  | [], known, locals, locals', store, later, u, _, hcovers, h => by
      unfold bindParams at h
      obtain ⟨-, rfl, rfl⟩ := yields_pure.mp h
      simpa using hcovers
  | (param, ty) :: rest, known, locals, locals', store, later, u, hparams, hcovers, h => by
      obtain ⟨hty, htail⟩ := List.forall_mem_cons.mp hparams
      simp only [bindParams, yields_bind] at h
      obtain ⟨found, _, _, hrename, widened, middle, between, hwiden, hrest⟩ := h
      have hheld := (widen_moves hflow.regime hty (hcovers.held.rename hflow hrename) hwiden).1.held
      obtain ⟨hnames, hrises, -, hbound, -⟩ := widen_rises hwiden
      obtain ⟨rfl, rfl, rfl⟩ := yields_rename.mp hrename
      have hafter : Covers P (known ++ [param]) middle between := by
        refine ⟨hheld, fun var hvar => ?_⟩
        rw [Knows, hnames, NameMap.find?_insert]
        split
        · exact ⟨_, rfl, hbound⟩
        · rename_i hne
          have hold : var ∈ known := by simpa [Ne.symm hne] using hvar
          obtain ⟨other, hother, hotherBound⟩ := hcovers.knows var hold
          exact ⟨other, hother, hrises.contains hotherBound⟩
      simpa using bindParams_covers hflow rest htail hafter hrest

theorem func_misses (hctx : ctx.Sealed) (hflow : Flowing Known (AllParts Known) P ctx)
    {source : Func} {args : List Ty} (hstore : P store)
    (hargs : source.Admits (AllParts Known) args)
    (h : Misses (func ctx source args) {} store name) :
    Missing source.params.names (Stmt.accessesBlock source.body) name := by
  unfold func at h
  split at h
  · obtain ⟨_, ⟨⟩⟩ := h
  · rename_i binding hbinding
    have hempty : Covers P [] {} store := ⟨.start hstore, List.forall_mem_nil _⟩
    simp only [misses_bind, misses_get, not_misses_bindParams, not_misses_refresh,
      not_misses_pure, yields_get, false_or, and_false, exists_false, or_false] at h
    obtain ⟨_, _, _, hparams, _, _, _, ⟨rfl, rfl, rfl⟩, h⟩ := h
    have hentered := bindParams_covers hflow binding.params (hargs binding hbinding) hempty hparams
    rw [List.nil_append, Params.bind_names hbinding] at hentered
    exact block_misses hctx hflow source.body hentered h

-- Sealed calls give what the calls themselves do.
theorem Flowing.seal {p bound : Ty → Prop} (h : Flowing p bound P ctx) :
    Flowing p bound P ctx.seal where
  regime := h.regime
  fresh := h.fresh
  addWrapper := h.addWrapper
  invoke := by
    intro store callee args ty later hstore hcallee hargs hinvoke
    unfold Session.Yields at hinvoke
    rw [outcome_seal] at hinvoke
    split at hinvoke
    · rename_i heq
      cases hinvoke
      exact h.invoke hstore hcallee hargs heq
    · cases hinvoke

end Annotate

-- A function for arguments of known types fails to find only a variable that it reads, and that
-- is not bound by then.
theorem Func.annotate_missing {P : Store → Prop} {ctx : Annotate.Context} (hctx : ctx.Sealed)
    (hflow : Annotate.Flowing Known (AllParts Known) P ctx) {func : Func} {args : List Ty}
    {store later : Store} {name : String} (hstore : P store)
    (hargs : func.Admits (AllParts Known) args)
    (h : Session.outcome (func.annotate ctx args) store = (.error (.unboundName name), later)) :
    Missing func.params.names (Stmt.accessesBlock func.body) name := by
  refine Annotate.func_misses hctx hflow hstore hargs ⟨later, ?_⟩
  rw [Comparison.outcome_annotate] at h
  generalize (Annotate.func ctx func args).outcome {} store = o at h ⊢
  rcases o with ⟨error | result, last⟩ <;> cases h
  rfl

end RankPoly
