import RankPoly.Proofs.Session.Recall
import RankPoly.Proofs.Session.Runs
import RankPoly.Proofs.Session.Sound

namespace RankPoly

open Session

-- Stores that hold the same, whatever has been counted and drawn in them.
structure Store.SameContents (store store' : Store) : Prop where
  funcs : store.funcs = store'.funcs
  built : store.built = store'.built
  calls : store.calls = store'.calls

namespace Store.SameContents

variable {store store' : Store}

theorem refl (store : Store) : store.SameContents store :=
  ⟨rfl, rfl, rfl⟩

theorem counters (h : store.SameContents store') (counters : Counters) :
    SameContents { store with counters } store' :=
  ⟨h.funcs, h.built, h.calls⟩

theorem fresh (h : store.SameContents store') (fresh : Fresh) :
    SameContents { store with fresh } store' :=
  ⟨h.funcs, h.built, h.calls⟩

theorem specialization?_eq (h : store.SameContents store') (request : Request) :
    store.specialization? request = store'.specialization? request := by
  unfold specialization?
  rw [h.built]

theorem callType?_eq (h : store.SameContents store') (call : Call) :
    store.callType? call = store'.callType? call := by
  unfold callType?
  rw [h.calls]

theorem coherent (h : store.SameContents store') (hstore : store'.Coherent) : store.Coherent := by
  intro callee args ty hfound
  rw [h.callType?_eq] at hfound
  change answer (resultIn store.built) callee args = some ty
  rw [h.built]
  exact hstore callee args ty hfound

end Store.SameContents

namespace Session

-- What is remembered of a call is never forgotten.
theorem kept_remembered (settings : Settings) (call : Call) :
    Kept settings fun store => (store.callType? call).isSome = true where
  counters _ h := h
  fresh _ _ h := h
  wrapper _ h _ := h
  remember callee args ty h _ := by
    unfold Store.callType? at h ⊢
    rw [List.find?_cons]
    split
    · rfl
    · exact h
  keep _ h _ _ _ _ _ := h

end Session

-- A later store, in which all is known and remembered that was so before.
def Store.Precedes (store later : Store) : Prop :=
  ∀ call, Leads (fun store => (store.callType? call).isSome = true) store later

namespace Store.Precedes

variable {store between later : Store}

theorem refl (store : Store) : store.Precedes store :=
  fun _ => .refl store

theorem trans (h : store.Precedes between) (h' : between.Precedes later) : store.Precedes later :=
  fun call => (h call).trans (h' call)

theorem grows (h : store.Precedes later) : store.Grows later :=
  (h ⟨.unknown, []⟩).1

-- A call has the same type when it is remembered, however much has been built since then.
theorem callType? (h : store.Precedes later) (hlater : later.Coherent) {callee : Ty}
    {args : List Ty} {ty : Ty} (hcall : store.callType? ⟨callee, args⟩ = some ty)
    (hanswer : answer store.result? callee args = some ty) :
    later.callType? ⟨callee, args⟩ = some ty := by
  obtain ⟨known, hknown⟩ := Option.isSome_iff_exists.mp ((h _).2 (Option.isSome_of_eq_some hcall))
  have heq := (hlater _ _ _ hknown).symm.trans (h.grows.answer hanswer)
  rw [hknown, heq]

theorem withWrapper (settings : Settings) (store : Store) (op : Prim) :
    store.Precedes (Session.withWrapper op store) :=
  fun call => .withWrapper (kept_remembered settings call) store op

theorem fresh (settings : Settings) (store : Store) (name : String) :
    store.Precedes { store with fresh := (store.fresh.refresh name).2 } :=
  fun call => .fresh (kept_remembered settings call) store name

theorem invokeWith (settings : Settings) (depth : Nat) (waiting : List Request) (callee : Ty)
    (args : List Ty) (store : Store) :
    store.Precedes
      (outcome (Session.invokeWith (specializeWithin settings depth waiting) callee args) store).2 :=
  fun call =>
    (serves_specializeWithin (kept_remembered settings call) depth waiting).leads_invokeWith
      (kept_remembered settings call) store callee args

end Store.Precedes

theorem SpecializeError.Alike.eq {error error' : SpecializeError}
    (h : error.Alike .equal error') : error = error' := by
  cases h with
  | refl => rfl
  | unboundName => rfl
  | missing => rfl
  | target h => rw [Expr.Alike.eq _ _ h]
  | axis h => rw [Expr.Alike.eq _ _ h]

-- Work that fails fails in the same way again, also on what it has left behind when it has
-- failed, and then it leaves nothing more behind.
def FailsAgain {α : Type} (work : Session α) : Prop :=
  ∀ ⦃store last later : Store⦄ ⦃error : SpecializeError⦄, store.Coherent →
    outcome work store = (.error error, last) → later.SameContents last →
      ∃ later', outcome work later = (.error error, later') ∧ later'.SameContents last

section Refused

variable {settings : Settings} {depth : Nat} {waiting : List Request}

-- The members before the one that fails are found in the cache.
theorem FailsAgain.joinResults
    (h : ∀ request, FailsAgain (specializeWithin settings depth waiting request)) (args : List Ty) :
    ∀ (members : List Closure) (joined : Ty),
      FailsAgain (Session.joinResults (specializeWithin settings depth waiting) args members joined)
  | [], _, _, _, _, _, _, hfailed, _ => nomatch hfailed
  | member :: rest, joined, store, last, later, error, hstore, hfailed, hlater => by
      have hserves := serves_specializeWithin (kept_coherent settings) depth waiting
      rw [outcome_joinResults_cons] at hfailed ⊢
      have hbetween := (hserves.leads ⟨member.func, member.captured ++ args⟩ store).2 hstore
      rcases hspec : outcome (specializeWithin settings depth waiting
        ⟨member.func, member.captured ++ args⟩) store with ⟨error' | spec, between⟩ <;>
        rw [hspec] at hfailed hbetween
      · cases hfailed
        obtain ⟨later', hlater', hsame⟩ := h _ hstore hspec hlater
        exact ⟨later', by rw [hlater', Outcome.andThen_error], hsame⟩
      · rw [Outcome.andThen_ok] at hfailed
        have hfound := specializeWithin_found hspec
        have hcached : between.Grows last → later.specialization? _ = some spec := fun hgrows =>
          (hlater.specialization?_eq _).trans (hgrows.built hfound)
        cases hcombine : joined.combine spec.returnType with
        | error error' =>
            simp only [hcombine] at hfailed
            cases hfailed
            rw [outcome_specializeWithin_cached (hcached (.refl last)), Outcome.andThen_ok, hcombine]
            exact ⟨hitCache later, rfl, hlater.counters _⟩
        | ok joined' =>
            simp only [hcombine] at hfailed
            have hgrows := (hserves.leads_joinResults args rest joined' between).1
            rw [hfailed] at hgrows
            rw [outcome_specializeWithin_cached (hcached hgrows), Outcome.andThen_ok, hcombine]
            exact joinResults h args rest joined' hbetween hfailed (hlater.counters _)

-- A call that fails is not remembered by what it leaves behind: if it were, all of its
-- members would have been specialized.
theorem FailsAgain.invokeWith
    (h : ∀ request, FailsAgain (specializeWithin settings depth waiting request)) (callee : Ty)
    (args : List Ty) :
    FailsAgain (Session.invokeWith (specializeWithin settings depth waiting) callee args) := by
  intro store last later error hstore hfailed hlater
  have hserves := serves_specializeWithin (kept_coherent settings) depth waiting
  rw [outcome_invokeWith] at hfailed ⊢
  cases hcall : store.callType? ⟨callee, args⟩ with
  | some ty =>
      rw [hcall] at hfailed
      cases hfailed
  | none =>
      cases hmembers : callee.members? with
      | none =>
          simp only [hcall, hmembers] at hfailed
          cases hfailed
          rw [hlater.callType?_eq, hcall]
          exact ⟨later, rfl, hlater⟩
      | some members =>
          simp only [hcall, hmembers] at hfailed
          have hlast := (hserves.leads_joinResults args members .unknown store).2 hstore
          rcases hjoin : outcome (Session.joinResults (specializeWithin settings depth waiting) args
            members .unknown) store with ⟨error' | ty, between⟩ <;> rw [hjoin] at hfailed hlast
          · cases hfailed
            obtain ⟨later', hagain, hsame⟩ := joinResults h args members .unknown hstore hjoin hlater
            cases hknown : later.callType? ⟨callee, args⟩ with
            | some ty =>
                obtain ⟨_, hmembers', hresults⟩ := Option.bind_eq_some_iff.mp
                  (hlater.coherent hlast callee args ty hknown)
                cases hmembers.symm.trans hmembers'
                obtain ⟨counters, hdone⟩ := joinResults_of_known settings depth waiting args hresults
                cases hagain.symm.trans hdone
            | none =>
                simp only [hagain, Outcome.andThen_error]
                exact ⟨later', rfl, hsame⟩
          · cases hfailed

-- Two runs, of which the first one stops at `last`, and the second one has had the contents of
-- that store all along.
def repeating (last : Store) : Comparison :=
  { Correspondence.equal with
    agree := fun store store' => store.Coherent ∧ store'.SameContents last
    grows := Store.Precedes
    within := fun store => store.Precedes last
    held := fun _ _ _ => True
    leftFree := fun store => store ≠ last
    rightFree := fun _ => False }

-- What the first run has called is remembered when the second one calls it, and the call that
-- has stopped the first one stops the second.
theorem FailsAgain.answers
    (h : ∀ request, FailsAgain (specializeWithin settings depth waiting request))
    {last left right : Store} (hlast : last.Coherent) (hleft : left.Coherent)
    (hright : right.SameContents last) (callee : Ty) (args : List Ty)
    (hwithin : (outcome (Session.invokeWith (specializeWithin settings depth waiting) callee args)
      left).2.Precedes last) :
    (repeating last).Answers left right
      (outcome (Session.invokeWith (specializeWithin settings depth waiting) callee args) left)
      (outcome (Session.invokeWith (specializeWithin settings depth waiting) callee args) right) := by
  have hserves := serves_specializeWithin (kept_coherent settings) depth waiting
  obtain ⟨hgrows, hbetween⟩ := hserves.leads_invokeWith (kept_coherent settings) left callee args
  rcases hdone : outcome (Session.invokeWith (specializeWithin settings depth waiting) callee args)
    left with ⟨error | ty, between⟩ <;> rw [hdone] at hgrows hbetween hwithin
  · by_cases heq : between = last
    · rw [heq] at hdone hbetween ⊢
      obtain ⟨right', hright', hsame⟩ := invokeWith h callee args hleft hdone hright
      rw [hright']
      exact Or.inr (Or.inr ⟨⟨hbetween hleft, hsame⟩, .refl error⟩)
    · rcases outcome (Session.invokeWith (specializeWithin settings depth waiting) callee args) right
        with ⟨_ | _, _⟩
      · exact Or.inl heq
      · exact heq
  · have hanswer := invokeWith_answer hserves hleft hdone
    have hknown := hwithin.callType? hlast (invokeWith_again hdone).1 hanswer
    rw [outcome_invokeWith, hright.callType?_eq, hknown]
    exact ⟨rfl, ⟨hbetween hleft, hright.counters _⟩, hgrows.fresh, le_rfl⟩

theorem FailsAgain.respects
    (h : ∀ request, FailsAgain (specializeWithin settings depth waiting request)) {last : Store}
    (hlast : last.Coherent) (limit : Nat) :
    (repeating last).Respects
      { loopLimit := limit, invoke := Session.invokeWith (specializeWithin settings depth waiting) }
      { loopLimit := limit
        invoke := Session.invokeWith (specializeWithin settings depth waiting) } where
  grows_refl := .refl
  grows_trans := .trans
  within_of_grows := .trans
  grows_fresh store name := .fresh settings store name
  grows_invoke store callee args := .invokeWith settings depth waiting callee args store
  grows_lifted := by
    intro store op args
    rw [Comparison.outcome_lifted]
    exact (Store.Precedes.withWrapper settings store op).trans
      (.invokeWith settings depth waiting _ _ _)
  agree_fresh := by
    rintro store store' name name' ⟨hstore, hsame⟩
    exact ⟨hstore, hsame.fresh _⟩
  asked_var _ := trivial
  held_refresh _ _ := trivial
  held_grows _ _ := trivial
  errors_of_alike h := h
  registered := by
    rintro left right func ⟨-, hsame⟩ hwithin
    by_cases heq : left = last
    · exact Or.inl (by rw [heq, hsame.funcs])
    · by_cases hname : left.funcs.contains func = true
      · exact Or.inl (by rw [hname, hsame.funcs, hwithin.grows.contains hname])
      · rw [if_neg hname]
        exact Or.inr heq
  invoke := by
    rintro left right callee args ⟨hleft, hright⟩ hwithin
    exact answers h hlast hleft hright callee args hwithin
  lifted := by
    rintro left right op args ⟨hleft, hright⟩ hwithin
    rw [Comparison.outcome_lifted] at hwithin
    rw [Comparison.outcome_lifted, Comparison.outcome_lifted]
    refine (answers h hlast ?_ ?_ _ args hwithin).of_withWrapper
    · exact (Leads.withWrapper (kept_coherent settings) left op).2 hleft
    · have hname := ((Store.Precedes.invokeWith settings depth waiting _ args _).trans
        hwithin).grows.contains (contains_withWrapper op left)
      rw [withWrapper_of_contains (hright.funcs ▸ hname)]
      exact hright
  limit_lt h := (Nat.lt_irrefl _ h).elim
  limit_gt h := (Nat.lt_irrefl _ h).elim

-- The annotation that fails is set against the same one that starts from what it has left.
theorem FailsAgain.annotate
    (h : ∀ request, FailsAgain (specializeWithin settings depth waiting request)) (limit : Nat)
    (func : Func) (args : List Ty) :
    FailsAgain (func.annotate
      { loopLimit := limit
        invoke := Session.invokeWith (specializeWithin settings depth waiting) } args) := by
  intro store last later error hstore hfailed hlater
  have hleads := (serves_specializeWithin (kept_coherent settings) depth waiting).leads_invokeWith
    (kept_coherent settings)
  have hannotate : Leads Store.Coherent store (outcome (func.annotate
      { loopLimit := limit
        invoke := Session.invokeWith (specializeWithin settings depth waiting) } args)
      store).2 :=
    Func.annotate_leads .refl .trans (.fresh (kept_coherent settings))
      (.withWrapper (kept_coherent settings)) hleads func args store
  rw [hfailed] at hannotate
  have hends := (respects h (hannotate.2 hstore) limit).annotate
    (Func.Alike.refl (fun _ => rfl) func) trivial args store later ⟨hstore, hlater⟩
    (by rw [hfailed]; exact .refl last)
  rw [hfailed] at hends
  rcases hagain : outcome (func.annotate
    { loopLimit := limit, invoke := Session.invokeWith (specializeWithin settings depth waiting) }
    args) later with ⟨error' | spec, later'⟩ <;> rw [hagain] at hends
  · rcases hends with hfree | hfree | ⟨hagree, herror⟩
    · exact absurd rfl hfree
    · exact hfree.elim
    · exact ⟨later', by rw [herror.eq], hagree.2⟩
  · exact absurd rfl hends

-- Passes that change nothing do not fail, so it is the annotation that does.
theorem FailsAgain.build {limits : Limits}
    (h : ∀ request, FailsAgain (specializeWithin (.ofLimits limits) depth waiting request))
    (func : Func) (args : List Ty) :
    FailsAgain (Session.build (.ofLimits limits)
      (Session.invokeWith (specializeWithin (.ofLimits limits) depth waiting)) func args) := by
  intro store last later error hstore hfailed hlater
  have hinferring : (inferring store).Coherent := hstore
  rw [outcome_build_ofLimits] at hfailed ⊢
  rcases hgiven : outcome (func.annotate
    { loopLimit := limits.maxLoopIterations
      invoke := Session.invokeWith (specializeWithin (.ofLimits limits) depth waiting) } args)
    (inferring store) with ⟨error' | spec, between⟩ <;> rw [hgiven] at hfailed <;> cases hfailed
  have hlater : (inferring later).SameContents last := hlater.counters _
  obtain ⟨later', hagain, hsame⟩ := annotate h _ func args hinferring hgiven hlater
  exact ⟨later', by rw [hagain, Outcome.andThen_error], hsame⟩

-- A request that fails is not in the cache when it is made again. It meets the same guards, and
-- what it got to build then fails again.
theorem specializeWithin_failsAgain (limits : Limits) : ∀ (depth : Nat) (waiting : List Request)
    (request : Request), FailsAgain (specializeWithin (.ofLimits limits) depth waiting request)
  | 0, waiting, request, store, last, later, error, _, hfailed, hlater => by
      have hnew := unbuilt_of_failed hfailed
      simp only [outcome_specializeWithin_zero, hnew] at hfailed
      cases hfailed
      simp only [outcome_specializeWithin_zero, hlater.specialization?_eq, hnew]
      exact ⟨later, rfl, hlater⟩
  | depth + 1, waiting, request, store, last, later, error, hstore, hfailed, hlater => by
      have hnew := unbuilt_of_failed hfailed
      by_cases hwaiting : request ∈ waiting
      · simp only [outcome_specializeWithin_succ, hnew, if_pos hwaiting] at hfailed
        cases hfailed
        simp only [outcome_specializeWithin_succ, hlater.specialization?_eq, hnew, if_pos hwaiting]
        exact ⟨later, rfl, hlater⟩
      · cases hfunc : store.funcs.find? request.func with
        | none =>
            simp only [outcome_specializeWithin_succ, hnew, if_neg hwaiting, hfunc] at hfailed
            cases hfailed
            simp only [outcome_specializeWithin_succ, hlater.specialization?_eq, hnew,
              if_neg hwaiting, hlater.funcs, hfunc]
            exact ⟨later, rfl, hlater⟩
        | some func =>
            have hgrows := grows_specializeWithin (.ofLimits limits) (depth + 1) waiting request store
            rw [hfailed] at hgrows
            have hunbuilt : (outcome (build (.ofLimits limits) (invokeWith (specializeWithin
                (.ofLimits limits) depth (request :: waiting))) func request.args)
                store).2.specialization? request = none :=
              build_unbuilt List.mem_cons_self hnew func request.args
            rw [outcome_specializeWithin_new hnew hwaiting hfunc] at hfailed
            rcases hbuild : outcome (build (.ofLimits limits) (invokeWith (specializeWithin
              (.ofLimits limits) depth (request :: waiting))) func request.args) store with
              ⟨error' | spec, between⟩ <;> rw [hbuild] at hfailed hunbuilt
            · cases hfailed
              obtain ⟨later', hagain, hsame⟩ := FailsAgain.build
                (specializeWithin_failsAgain limits depth (request :: waiting)) func request.args
                hstore hbuild hlater
              have hnew' := (hlater.specialization?_eq request).trans hunbuilt
              have hfunc' : later.funcs.find? request.func = some func :=
                hlater.funcs ▸ hgrows.funcs hfunc
              refine ⟨later', ?_, hsame⟩
              rw [outcome_specializeWithin_new hnew' hwaiting hfunc', hagain, Outcome.andThen_error]
            · obtain ⟨kept, hkept⟩ := outcome_keep_ok request spec between
              rw [Outcome.andThen_ok, hkept] at hfailed
              cases hfailed

end Refused

end RankPoly
