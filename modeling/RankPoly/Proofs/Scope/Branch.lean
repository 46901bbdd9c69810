import RankPoly.Proofs.Scope.Missing
import RankPoly.Proofs.Wrapper

namespace RankPoly

open Access
open Session
open Stmt (accessesBlock)
open Ty (AllParts Known)

-- A function is typed only if all that it reads is in scope. The first variable that is not
-- makes it fail, if nothing else does before.
theorem Func.annotate_inScope {ctx : Annotate.Context} (hctx : ctx.Sealed) (func : Func)
    (args : List Ty) (store : Store) :
    (outcome (func.annotate ctx args) store).Leaves
      (fun _ _ => InScope func.params.names (accessesBlock func.body))
      (fun error _ => ∀ name, error = .unboundName name →
        ∃ earlier, Reads (accessesBlock func.body) earlier name ∧
          InScope func.params.names earlier) := by
  have hbody : ∀ {accesses : List Access},
      InScope [] (func.params.names.map .binds ++ accesses) →
        InScope func.params.names accesses := by
    intro accesses h
    simpa [bound_map_binds] using (inScope_append.mp h).2
  have hfunc := Annotate.func_performs hctx func args [] {} store nofun
  rw [Comparison.outcome_annotate]
  refine (hfunc.imp (fun _ _ hdone => hdone) fun error _ hfailed name herror => ?_).andThen
    fun result _ hdone => hbody hdone.1
  obtain ⟨earlier, hread, hscope⟩ := hfailed name herror
  rcases reads_append.mp hread with hread | ⟨earlier, rfl, hread'⟩
  · exact (not_reads_binds hread).elim
  · exact ⟨earlier, hread', hbody hscope⟩

section Specialize

variable {settings : Settings} {defs : List Func} {store later : Store} {name : String}
  {func : Func} {args : List Ty}

-- Calls draw names, and give none back.
theorem fresh_le_invoke (settings : Settings) (depth : Nat) (waiting : List Request)
    (callee : Ty) (args : List Ty) (store : Store) :
    store.fresh.next ≤
      (outcome ((settings.context depth waiting).invoke callee args) store).2.fresh.next := by
  have hkept := kept_trivial settings
  exact ((serves_specializeWithin hkept depth waiting).leads_invokeWith hkept store callee
    args).1.fresh

theorem specialize_inScope {spec : Specialization} (hstore : Reachable settings defs store)
    (hfunc : store.funcs.find? name = some func)
    (h : Yields (specialize settings name args) store spec later) :
    InScope func.params.names (accessesBlock func.body) := by
  have hlater : Reachable settings defs later := by
    have hstep := hstore.step (.specialize name args)
    unfold Yields at h
    simpa only [Operation.registered, Operation.after, h, List.nil_append] using hstep
  have hgrows : store.Grows later := by
    have hleads := specialize_leads (kept_trivial settings) name args store
    unfold Yields at h
    rw [h] at hleads
    exact hleads.1
  have hfound : later.specialization? ⟨name, args⟩ = some spec := by
    unfold Yields at h
    rw [outcome_specialize] at h
    split at h
    · exact specializeWithin_found h
    · cases h
  obtain ⟨known, hknown, depth, waiting, start, last, given, coerced, hgiven, -⟩ :=
    ((lasting_sourced settings).of_reachable hlater).made _ spec hfound
  cases (hgrows.funcs hfunc).symm.trans hknown
  have hseal := Func.annotate_seal (fresh_le_invoke settings depth waiting) func args start
  rw [hgiven] at hseal
  obtain ⟨spec', later', hspec'⟩ := hseal
  have hleaves := Func.annotate_inScope (settings.context depth waiting).sealed_seal func args start
  rw [hspec'] at hleaves
  exact hleaves

-- Passes that do not fail because they do not find a variable.
def Settings.Finds (settings : Settings) : Prop :=
  ∀ spec name, settings.coercion spec ≠ .error (.unboundName name) ∧
    settings.optimizer spec ≠ .error (.unboundName name)

theorem Settings.finds_ofLimits (limits : Limits) : (ofLimits limits).Finds :=
  fun _ _ => ⟨nofun, nofun⟩

-- Either a variable is not found as a function is typed, or one of the passes does not find it.
theorem annotate_of_build_unbound {invoke : Ty → List Ty → Session Ty} {missing : String}
    (h : outcome (build settings invoke func args) store = (.error (.unboundName missing), later)) :
    let typed := outcome (func.annotate
      { loopLimit := settings.limits.maxLoopIterations, invoke } args) (inferring store)
    (∃ last, typed = (.error (.unboundName missing), last)) ∨
      (∃ spec last, typed = (.ok spec, last)) ∧ ¬settings.Finds := by
  intro typed
  rw [outcome_build] at h
  change typed.andThen _ = _ at h
  rcases typed with ⟨error | spec, last⟩
  · cases h
    exact Or.inl ⟨later, rfl⟩
  · refine Or.inr ⟨⟨spec, last, rfl⟩, fun hfinds => ?_⟩
    rw [Outcome.andThen_ok, outcome_bind, outcome_runPass] at h
    cases hcoerced : settings.coercion spec with
    | error error =>
        rw [hcoerced] at h
        cases h
        exact (hfinds spec missing).1 hcoerced
    | ok coerced =>
        rw [hcoerced, Outcome.andThen_ok, outcome_runPass] at h
        exact (hfinds coerced missing).2 (Prod.mk.inj h).1

-- What a request is typed with that no other one waits for.
def Settings.outermost (settings : Settings) (name : String) (args : List Ty) :
    Annotate.Context :=
  settings.context (settings.limits.maxDepth - 1) [⟨name, args⟩]

-- The same may be said of what is typed with sealed calls, unless a call fails.
theorem sealed_of_unbound (hfunc : store.funcs.find? name = some func) {missing : String}
    (h : outcome (specialize settings name args) store = (.error (.unboundName missing), later)) :
    let typed := outcome (func.annotate (settings.outermost name args).seal args) (inferring store)
    func.CallFails (settings.outermost name args) args (inferring store) ∨
      (∃ last, typed = (.error (.unboundName missing), last)) ∨
      (∃ spec last, typed = (.ok spec, last)) ∧ ¬settings.Finds := by
  rw [outcome_specialize, if_pos (NameMap.contains_iff.mpr ⟨func, hfunc⟩)] at h
  cases hnew : store.specialization? ⟨name, args⟩ with
  | some spec =>
      rw [outcome_specializeWithin_cached hnew] at h
      cases h
  | none =>
      unfold Settings.outermost
      cases hdepth : settings.limits.maxDepth with
      | zero =>
          rw [hdepth, outcome_specializeWithin_zero, hnew] at h
          cases h
      | succ depth =>
          rw [hdepth, outcome_specializeWithin_new hnew List.not_mem_nil hfunc] at h
          have hseal := Func.annotate_seal (fresh_le_invoke settings depth [⟨name, args⟩]) func args
            (inferring store)
          rcases hbuild : outcome (build settings (invokeWith (specializeWithin settings depth
            [⟨name, args⟩])) func args) store with ⟨error | spec, last⟩ <;> rw [hbuild] at h
          · cases h
            unfold Settings.context at hseal
            rcases annotate_of_build_unbound hbuild with
              ⟨last, htyped⟩ | ⟨⟨spec, last, htyped⟩, hnot⟩
            · rw [htyped] at hseal
              rcases hseal with hcall | hsealed
              · exact Or.inl hcall
              · exact Or.inr (Or.inl ⟨last, hsealed⟩)
            · rw [htyped] at hseal
              exact Or.inr (Or.inr ⟨hseal, hnot⟩)
          · obtain ⟨kept, hkept⟩ := outcome_keep_ok ⟨name, args⟩ spec last
            cases hkept.symm.trans h

-- A variable that is read and not in scope makes a function fail. What it does not find is
-- read no later, if it fails to find something and not because of a call.
theorem specialize_not_inScope (hstore : Reachable settings defs store)
    (hfunc : store.funcs.find? name = some func) {earlier : List Access} {var : String}
    (hread : Reads (accessesBlock func.body) earlier var)
    (hvar : var ∉ func.params.names ++ bound earlier) :
    ∃ error later, outcome (specialize settings name args) store = (.error error, later) ∧
      ∀ missing, error = .unboundName missing →
        (∃ upto, upto <+: earlier ∧ Reads (accessesBlock func.body) upto missing) ∨
          func.CallFails (settings.outermost name args) args (inferring store) := by
  rcases houtcome : outcome (specialize settings name args) store with ⟨error | spec, later⟩
  swap
  · exact (hvar (specialize_inScope hstore hfunc houtcome hread)).elim
  refine ⟨error, later, rfl, ?_⟩
  rintro missing rfl
  have hleaves := Func.annotate_inScope (settings.outermost name args).sealed_seal func args
    (inferring store)
  rcases sealed_of_unbound hfunc houtcome with hcall | ⟨last, htyped⟩ | ⟨⟨spec, last, htyped⟩, -⟩
  · exact Or.inr hcall
  · rw [htyped] at hleaves
    obtain ⟨upto, hmissing, hscope⟩ := hleaves missing rfl
    exact Or.inl ⟨upto, hread.initial_of_inScope hvar hmissing hscope, hmissing⟩
  · rw [htyped] at hleaves
    exact (hvar (hleaves hread)).elim

-- What is not found, and not because of a call, is the first variable that is not in scope, if
-- all types are known.
theorem specialize_missing (hpasses : settings.Keeps Known) (hfinds : settings.Finds)
    (hstore : Reachable settings defs store) (hfunc : store.funcs.find? name = some func)
    (hargs : func.Admits (AllParts Known) args) {missing : String}
    (h : outcome (specialize settings name args) store = (.error (.unboundName missing), later)) :
    (∃ earlier, Reads (accessesBlock func.body) earlier missing ∧
      missing ∉ func.params.names ++ bound earlier ∧ InScope func.params.names earlier) ∨
      func.CallFails (settings.outermost name args) args (inferring store) := by
  rcases sealed_of_unbound hfunc h with hcall | ⟨last, htyped⟩ | ⟨-, hnot⟩
  · exact Or.inr hcall
  · have hkept := kept_sure Ty.stable_known.regime hpasses
    have hsure : (inferring store).Sure Known :=
      hkept.counters _ ((lasting_sure Ty.stable_known.regime hpasses).of_reachable hstore)
    have hflow : Annotate.Flowing Known (AllParts Known) (Store.Sure Known)
        (settings.outermost name args) := hkept.flowing Ty.stable_known.regime id _ _
    obtain ⟨earlier, hread, hvar⟩ := Func.annotate_missing
      (settings.outermost name args).sealed_seal hflow.seal hsure hargs htyped
    have hleaves := Func.annotate_inScope (settings.outermost name args).sealed_seal func args
      (inferring store)
    rw [htyped] at hleaves
    obtain ⟨upto, hread', hscope⟩ := hleaves missing rfl
    refine Or.inl ⟨upto, hread', fun hmem => hvar ?_, hscope⟩
    obtain ⟨rest, rfl⟩ := hread.initial_of_inScope hvar hread' hscope
    rw [bound_append, ← List.append_assoc]
    exact List.mem_append_left _ hmem
  · exact (hnot hfinds).elim

-- The blocks of a branch are typed one after the other, and the second sees what the first
-- has bound. The first does not see what the second will bind. A function fails if it reads what
-- is not in scope, and what is in scope is found if all types are known. Exchanged, the blocks
-- find the same if neither reads what has been bound by the other one only.
theorem branch_reads_bound (hstore : Reachable settings defs store)
    (hfunc : store.funcs.find? name = some func) {place : Place} {cond : Expr}
    {onTrue onFalse : List (Stmt Expr)} {merges : List (Merge Expr)}
    (hbody : func.body = place.fill (.branch cond onTrue onFalse merges)) (args : List Ty) :
    let params := func.params.names
    let outside := params ++ bound place.before
    let exchanged := place.fill (.branch cond onFalse onTrue (merges.map Merge.swap))
    let callFails := func.CallFails (settings.outermost name args) args (inferring store)
    (∀ spec later, Yields (specialize settings name args) store spec later →
      InScope outside (accessesBlock onTrue) ∧
        InScope (outside ++ bound (accessesBlock onTrue)) (accessesBlock onFalse)) ∧
    (∀ earlier var, Reads (accessesBlock func.body) earlier var → var ∉ params ++ bound earlier →
      ∃ error later, outcome (specialize settings name args) store = (.error error, later) ∧
        ∀ missing, error = .unboundName missing →
          (∃ upto, upto <+: earlier ∧ Reads (accessesBlock func.body) upto missing) ∨
            callFails) ∧
    (settings.Keeps Known → settings.Finds → func.Admits (AllParts Known) args →
      ∀ missing later,
        outcome (specialize settings name args) store = (.error (.unboundName missing), later) →
        (∃ earlier, Reads (accessesBlock func.body) earlier missing ∧
          missing ∉ params ++ bound earlier ∧ InScope params earlier) ∨ callFails) ∧
    (Apart outside (accessesBlock onTrue) (accessesBlock onFalse) →
      Apart outside (accessesBlock onFalse) (accessesBlock onTrue) →
      (lookups params (accessesBlock func.body)).Perm (lookups params (accessesBlock exchanged)) ∧
        (InScope params (accessesBlock func.body) ↔ InScope params (accessesBlock exchanged))) := by
  intro params outside exchanged callFails
  refine ⟨fun spec later h => ?_, fun earlier var hread hvar => ?_,
    fun hpasses hfinds hargs missing later h => ?_, fun htrue hfalse => ?_⟩
  · have hscope := specialize_inScope hstore hfunc h
    rw [hbody, Place.accesses_fill, inScope_append, inScope_append] at hscope
    obtain ⟨-, hbranch, -⟩ := hscope
    unfold Stmt.accesses at hbranch
    rw [← List.singleton_append, inScope_append, inScope_append, inScope_append] at hbranch
    simpa [outside, params] using hbranch.2.1
  · exact specialize_not_inScope hstore hfunc hread hvar
  · exact specialize_missing hpasses hfinds hstore hfunc hargs h
  · have hfound : (lookups params (accessesBlock func.body)).Perm
        (lookups params (accessesBlock exchanged)) := by
      rw [hbody]
      exact (Match.branch merges htrue hfalse).found
    refine ⟨hfound, ?_⟩
    simp only [inScope_iff_lookups]
    exact forall_congr' fun lookup => by rw [hfound.mem_iff]

end Specialize

-- A branch whose blocks do not rely on each other, and one whose first block reads what only
-- the second binds.
theorem apart_blocks_exchanged :
    let onTrue : List (Stmt Expr) :=
      [.assign (.var "y") (.var "x"), .assign (.var "z") (.var "y")]
    let onFalse : List (Stmt Expr) := [.assign (.var "w") (.var "x")]
    let merges : List (Merge Expr) := [⟨"v", .var "z", .var "w"⟩]
    let place : Place := .here [.ret (.var "v")]
    let func := Demo.define "apart" ["c", "x"]
      (place.fill (.branch (.var "c") onTrue onFalse merges))
    let early := Demo.define "early" ["c"]
      [.branch (.var "c") [.assign (.var "z") (.var "y")] [.assign (.var "y") (.const (.int 1))] []]
    let settings := Settings.ofLimits {}
    let store := Operation.after settings {} (.register func)
    let store' := Operation.after settings {} (.register early)
    (∃ spec later,
      Yields (specialize settings "apart" [.scalar .bool, .scalar .i64]) store spec later) ∧
      InScope ["c", "x"] (accessesBlock onTrue) ∧
      (lookups ["c", "x"] (accessesBlock func.body)).Perm (lookups ["c", "x"] (accessesBlock
        (place.fill (.branch (.var "c") onFalse onTrue (merges.map Merge.swap))))) ∧
      (∃ later, outcome (specialize settings "early" [.scalar .bool]) store' =
        (.error (.unboundName "y"), later)) ∧
      ∃ earlier, Reads (accessesBlock early.body) earlier "y" ∧ InScope ["c"] earlier := by
  intro onTrue onFalse merges place func early settings store store'
  have hstore : Reachable settings [func] store := .step (.register func) .start
  have hstore' : Reachable settings [early] store' := .step (.register early) .start
  obtain ⟨spec, later, h⟩ := Outcome.exists_ok
    (o := outcome (specialize settings "apart" [.scalar .bool, .scalar .i64]) store)
    (by decide +kernel)
  have hfunc : store.funcs.find? "apart" = some func := rfl
  have hearly : store'.funcs.find? "early" = some early := rfl
  have hbody : early.body = Place.fill (.branch (.var "c") [.assign (.var "z") (.var "y")]
      [.assign (.var "y") (.const (.int 1))] []) (.here []) := rfl
  obtain ⟨hscope, -, -, hexchange⟩ :=
    branch_reads_bound hstore hfunc (rfl : func.body = place.fill _) [.scalar .bool, .scalar .i64]
  obtain ⟨-, -, hmissing, -⟩ := branch_reads_bound hstore' hearly hbody [.scalar .bool]
  have hfirst : InScope ["c", "x"] (accessesBlock onTrue) := (hscope spec later h).1
  have hsecond : InScope ["c", "x"] (accessesBlock onFalse) := inScope_iff_lookups.mpr (by decide)
  obtain ⟨last, herror⟩ : ∃ last, outcome (specialize settings "early" [.scalar .bool]) store' =
      (.error (.unboundName "y"), last) := ⟨_, by with_unfolding_all rfl⟩
  have hargs : early.Admits (AllParts Known) [.scalar .bool] := by
    rintro _ ⟨⟩
    decide
  refine ⟨⟨spec, later, h⟩, hfirst, (hexchange hsecond.apart hfirst.apart).1, ⟨last, herror⟩, ?_⟩
  rcases hmissing (Settings.keeps_ofLimits {} _) (Settings.finds_ofLimits {}) hargs _ _ herror
    with ⟨earlier, hread, -, hbefore⟩ | ⟨callee, _, hcall⟩
  · exact ⟨earlier, hread, hbefore⟩
  · obtain ⟨_, hsealed⟩ : ∃ last, outcome (early.annotate
        (settings.outermost "early" [.scalar .bool]).seal [.scalar .bool]) (inferring store') =
        (.error (.unboundName "y"), last) := ⟨_, by with_unfolding_all rfl⟩
    cases hsealed.symm.trans hcall

-- A block does see what the other one has bound before it, and not the other way around.
theorem onFalse_reads_onTrue :
    let onTrue : List (Stmt Expr) := [.assign (.var "y") (.const (.int 1))]
    let onFalse : List (Stmt Expr) := [.assign (.var "z") (.var "y")]
    let func := Demo.define "f" ["c"] [.branch (.var "c") onTrue onFalse []]
    let exchanged := Demo.define "f" ["c"] [.branch (.var "c") onFalse onTrue []]
    let store := Operation.after {} {} (.register func)
    let store' := Operation.after {} {} (.register exchanged)
    (∃ spec later, Yields (specialize {} "f" [.scalar .bool]) store spec later) ∧
      Reads (accessesBlock onFalse) [] "y" ∧ "y" ∉ func.params.names ∧
      ∃ later, outcome (specialize {} "f" [.scalar .bool]) store' =
        (.error (.unboundName "y"), later) := by
  intro onTrue onFalse func exchanged store store'
  have h := Outcome.exists_ok
    (o := outcome (specialize {} "f" [.scalar .bool]) store) (by decide +kernel)
  exact ⟨h, ⟨["y"], _, rfl, List.mem_singleton_self _⟩, by decide, _, by with_unfolding_all rfl⟩

end RankPoly
