import RankPoly.Proofs.Flow.Assigned
import RankPoly.Proofs.Flow.Stmt
import RankPoly.Proofs.Session.Met

namespace RankPoly

open Annotate
open Ty (AllParts Climbs Plain)

namespace NameMap

variable {env entered env' : NameMap Ty}

-- The number of scalars and arrays that the types of all locals are made of.
def leafCount (env : NameMap Ty) : Nat :=
  (env.map fun entry => entry.2.leaves.length).sum

-- How often the types of locals can be changed.
def headroom (env : NameMap Ty) : Nat :=
  ((env.map Prod.snd).map Ty.headroom).sum

theorem headroom_le (env : NameMap Ty) : env.headroom ≤ 6 * env.leafCount := by
  unfold headroom leafCount
  induction env with
  | nil => exact Nat.zero_le _
  | cons entry rest ih =>
      have hentry := entry.2.headroom_le
      simp only [List.map_cons, List.sum_cons] at ih ⊢
      omega

theorem extendedBy_self (h : env.keys.Nodup) : env.extendedBy env = true := by
  refine List.all_eq_true.mpr fun entry hentry => decide_eq_true ?_
  exact find?_of_mem h hentry

-- Types of the same locals stay as they are, or there is less of them left to change.
theorem Rises.climbs (h : env.Rises env') (hnodup : env.keys.Nodup) (hkeys : env'.keys = env.keys)
    (hplain : ∀ ty ∈ env.map Prod.snd, AllParts Plain ty) :
    (∀ ty ∈ env'.map Prod.snd, AllParts Plain ty) ∧
      (env' = env ∨ env'.headroom < env.headroom) := by
  have hclimbs : List.Forall₂ Climbs (env.map Prod.snd) (env'.map Prod.snd) := by
    have hrises := h.forall₂ hnodup hkeys
    generalize env.map Prod.snd = tys at hrises hplain
    generalize env'.map Prod.snd = risen at hrises
    induction hrises with
    | nil => exact .nil
    | cons hfirst _ ih =>
        obtain ⟨hty, hplain⟩ := List.forall_mem_cons.mp hplain
        exact .cons (Ty.climbs_of_rises hty hfirst) (ih hplain)
  refine ⟨Climbs.of_forall₂ hclimbs, (Climbs.sum hclimbs).imp_left fun hvalues => ?_⟩
  exact (List.zip_of_prod hkeys hvalues).trans (List.zip_of_prod rfl rfl).symm

end NameMap

namespace Annotate

variable {ctx : Context} {locals locals' : Locals} {store later : Store}

-- Locals that a loop has been passed over with: all variables that it assigns to are bound,
-- and all types are plain.
structure Passed (vars : List String) (locals : Locals) : Prop where
  sorted : locals.env.Sorted
  knows : ∀ var ∈ vars, Knows locals var
  plain : ∀ ty ∈ locals.env.map Prod.snd, AllParts Plain ty

-- One more pass that does not settle a loop leaves less to change.
theorem Passed.unsettled {cond : Expr} {body : List (Stmt Expr)} {merges : List (Merge Expr)}
    {t : TypedStmt} (hstart : Passed (Stmt.loop cond body merges).assigned locals)
    (h : Yields (loopPass ctx cond (block ctx body) merges) locals store (t, false) locals' later) :
    Passed (Stmt.loop cond body merges).assigned locals' ∧
      locals'.env.headroom < locals.env.headroom := by
  obtain ⟨entered, henters, hassigns, hsettled⟩ := loopPass_assigns (block_assigns ctx body) h
  obtain ⟨hmerges, hbody⟩ := List.forall_mem_append.mp hstart.knows
  have hsorted := henters.sorted hstart.sorted
  have hkeys := henters.keys hstart.sorted hmerges
  have hkeys' := hassigns.keys hsorted fun var hvar => henters.knows_of (hbody var hvar)
  obtain ⟨hplain, hentered⟩ := henters.rises.climbs hstart.sorted.nodup hkeys hstart.plain
  obtain ⟨hplain', hchange⟩ := hassigns.rises.climbs hsorted.nodup hkeys' hplain
  refine ⟨⟨hassigns.sorted hsorted, (henters.trans hassigns).knows, hplain'⟩, ?_⟩
  rcases hchange with heq | hlt
  · -- What has not changed would have settled the loop.
    rw [heq, NameMap.extendedBy_self hsorted.nodup] at hsettled
    cases hsettled
  · rcases hentered with heq | hlt'
    · exact heq ▸ hlt
    · exact Nat.lt_trans hlt hlt'

-- Each pass that is come to, by passes that do not settle the loop, is completed.
def Completes (pass : Annotate (TypedStmt × Bool)) (locals : Locals) (store : Store) : Prop :=
  ∀ ⦃start before⦄, Unsettled pass locals store start before →
    ∃ result last after, Yields pass start before result last after

-- Passes that are completed settle a loop, if there are more of them than changes to make.
theorem Passed.settles {cond : Expr} {body : List (Stmt Expr)} {merges : List (Merge Expr)}
    {limit : Nat} : ∀ (left : Nat) {locals : Locals} {store : Store},
      Passed (Stmt.loop cond body merges).assigned locals → locals.env.headroom < left →
      Completes (loopPass ctx cond (block ctx body) merges) locals store →
      ∃ t locals' later, Yields (settle limit (loopPass ctx cond (block ctx body) merges) left)
        locals store t locals' later
  | 0, _, _, _, hleft, _ => (Nat.not_lt_zero _ hleft).elim
  | left + 1, locals, store, hstart, hleft, hpasses => by
      obtain ⟨⟨t, settled⟩, middle, between, hpass⟩ := hpasses .none
      simp only [settle, yields_bind, Prod.exists]
      cases settled with
      | true => exact ⟨t, middle, between, t, true, middle, between, hpass, rfl⟩
      | false =>
          obtain ⟨hmiddle, hlt⟩ := hstart.unsettled hpass
          obtain ⟨t', locals', later, hrest⟩ := hmiddle.settles left (by omega)
            fun _ _ hunsettled => hpasses (.again hpass hunsettled)
          exact ⟨t', locals', later, t, false, middle, between, hpass, hrest⟩

end Annotate

-- A loop over plain data settles. After its first pass, all locals are there that it assigns
-- to, and each further pass that does not settle it promotes a scalar or an array of one of
-- their types, which can be done six times to each. Types that are plain after the first pass
-- stay so. This holds of any loop, with whatever loops and branches in it, in any surroundings,
-- as long as no pass fails by itself.
theorem loop_settles {ctx : Context} {cond : Expr} {body : List (Stmt Expr)}
    {merges : List (Merge Expr)} {locals first : Locals} {store between : Store} {t : TypedStmt}
    {settled : Bool} (hsorted : locals.env.Sorted)
    (hfirst : Yields (loopPass ctx cond (block ctx body) merges) locals store (t, settled) first
      between)
    (hplain : ∀ entry ∈ first.env, AllParts Plain entry.2)
    (hlimit : 2 + 6 * first.env.leafCount ≤ ctx.loopLimit)
    (hpasses : Completes (loopPass ctx cond (block ctx body) merges) locals store) :
    ∃ t locals' later, Yields (stmt ctx (.loop cond body merges)) locals store t locals' later := by
  have hheadroom := first.env.headroom_le
  obtain ⟨left, hleft⟩ : ∃ left, ctx.loopLimit = left + 1 := ⟨ctx.loopLimit - 1, by omega⟩
  unfold stmt
  rw [hleft]
  simp only [settle, yields_bind, Prod.exists]
  cases settled with
  | true => exact ⟨t, first, between, t, true, first, between, hfirst, rfl⟩
  | false =>
      obtain ⟨entered, henters, hassigns, -⟩ := loopPass_assigns (block_assigns ctx body) hfirst
      have hwhole := henters.trans hassigns
      have hpassed : Passed (Stmt.loop cond body merges).assigned first :=
        ⟨hwhole.sorted hsorted, hwhole.knows, List.forall_mem_map.mpr hplain⟩
      obtain ⟨t', locals', later, hrest⟩ := hpassed.settles left (by omega)
        fun _ _ hunsettled => hpasses (.again hfirst hunsettled)
      exact ⟨t', locals', later, t, false, first, between, hfirst, hrest⟩

-- A variable that is entered as a truth value and comes back as an integer. The first pass
-- leaves two types of one leaf each, and the second one settles the loop.
theorem flag_loop_settles :
    let ctx := Settings.context (.ofLimits {}) 0 []
    let cond : Expr := .const (.bool true)
    let body : List (Stmt Expr) := [.assign (.var "x1") (.const (.int 1))]
    let merges : List (Merge Expr) := [⟨"x", .const (.bool false), .var "x1"⟩]
    ∃ t locals' later, Yields (stmt ctx (.loop cond body merges)) {} {} t locals' later := by
  intro ctx cond body merges
  let typed : TypedStmt := .loop (.const (.bool true) .bool)
    [.assign (.var "x1.1" .i64) (.const (.int 1) .i64)]
    [⟨"x.0", .const (.bool false) .bool, .var "x1.1" .i64⟩]
  let first : Locals :=
    { names := [("x", "x.0"), ("x1", "x1.1")], env := [("x.0", .i64), ("x1.1", .i64)] }
  have hfirst : Yields (loopPass ctx cond (block ctx body) merges) {} {} (typed, false) first
      { fresh := ⟨2⟩ } := by
    subst ctx cond body merges typed first
    rfl
  have hsecond : Yields (loopPass ctx cond (block ctx body) merges) first { fresh := ⟨2⟩ }
      (typed, true) first { fresh := ⟨2⟩ } := by
    subst ctx cond body merges typed first
    rfl
  refine loop_settles .nil hfirst (by decide) (by decide) fun start before h => ?_
  cases h with
  | none => exact ⟨_, _, _, hfirst⟩
  | again hpass hrest =>
      cases hfirst.symm.trans hpass
      cases hrest with
      | none => exact ⟨_, _, _, hsecond⟩
      | again hpass => exact nomatch hsecond.symm.trans hpass

end RankPoly
