import RankPoly.Demo
import RankPoly.Proofs.Session.Inside
import RankPoly.Proofs.Session.Recall

namespace RankPoly

open Session

variable {limits limits' : Limits} {defs defs' : List Func} {store store' : Store}

-- Whatever one function serves, the other one serves in a session that covers
-- the first, and the sessions stay like that.
def Retains (defs defs' : List Func) (specialize specialize' : Request → Session Specialization) :
    Prop :=
  ∀ {request store store' spec later}, Covers defs defs' store store' →
    outcome (specialize request) store = (.ok spec, later) →
    ∃ spec' later', outcome (specialize' request) store' = (.ok spec', later') ∧
      Covers defs defs' later later'

-- The same for calls.
def RetainsCalls (defs defs' : List Func) (invoke invoke' : Ty → List Ty → Session Ty) : Prop :=
  ∀ ⦃callee args ty store store' later⦄, Covers defs defs' store store' →
    outcome (invoke callee args) store = (.ok ty, later) →
    ∃ later', outcome (invoke' callee args) store' = (.ok ty, later') ∧
      Covers defs defs' later later'

theorem Covers.hit (h : Covers defs defs' store store') : Covers defs defs' store (hitCache store') :=
  h.counters store.counters _

-- Specializations that both sessions serve for one request return the same.
theorem Covers.renamed (h : Covers defs defs' store store') {request : Request}
    {spec spec' : Specialization} (hspec : store.specialization? request = some spec)
    (hspec' : store'.specialization? request = some spec') :
    spec.Renamed spec' :=
  h.left.grounded.renamed h.sameFuncs h.right.grounded (mem_of_specialization? hspec)
    (mem_of_specialization? hspec')

section Invoke

variable {specialize specialize' : Request → Session Specialization}

theorem Retains.joinResults (h : Retains defs defs' specialize specialize')
    (hserves : Serves (Sound defs) specialize) (hserves' : Serves (Sound defs') specialize')
    (args : List Ty) : ∀ {members : List Closure} {joined ty : Ty} {store store' later : Store},
      Covers defs defs' store store' →
      outcome (Session.joinResults specialize args members joined) store = (.ok ty, later) →
      ∃ later', outcome (Session.joinResults specialize' args members joined) store' =
        (.ok ty, later') ∧ Covers defs defs' later later'
  | [], joined, ty, store, store', later, hcovers, hjoin => by
      cases hjoin
      exact ⟨store', rfl, hcovers⟩
  | member :: rest, joined, ty, store, store', later, hcovers, hjoin => by
      obtain ⟨spec, between, joined', hspec, hcombine, hrest⟩ :=
        Session.yields_joinResults_cons hjoin
      obtain ⟨spec', between', hspec', hbetween⟩ := h hcovers hspec
      have heq := (hbetween.renamed (hserves.found hspec) (hserves'.found hspec')).returnType_eq
      rw [outcome_joinResults_cons, hspec', Outcome.andThen_ok, ← heq, hcombine]
      exact h.joinResults hserves hserves' args hbetween hrest

theorem Retains.invokeWith {settings : Settings} {depth : Nat} {waiting : List Request}
    (h : Retains defs defs' specialize (specializeWithin settings depth waiting))
    (hserves : Serves (Sound defs) specialize)
    (hserves' : Serves (Sound defs') (specializeWithin settings depth waiting))
    (hinside : ∀ store', StaysInside defs defs' store' specialize) :
    RetainsCalls defs defs' (Session.invokeWith specialize)
      (Session.invokeWith (specializeWithin settings depth waiting)) := by
  intro callee args ty store store' later hcovers hinvoke
  have hanswer := invokeWith_answer hserves hcovers.left.coherent hinvoke
  rw [outcome_invokeWith]
  cases hcall' : store'.callType? ⟨callee, args⟩ with
  | some ty' =>
      -- The second session remembers the call. Then it has all that the first
      -- one can come to have by it.
      have hanswer' := hcovers.right.coherent _ _ _ hcall'
      have hlater := (hinside store').invokeWith hserves hanswer' hcovers
      rw [hinvoke] at hlater
      cases (answer_mono hlater.result? hanswer).symm.trans hanswer'
      exact ⟨_, rfl, hlater.counters later.counters _⟩
  | none =>
      obtain ⟨members, hmembers, -⟩ := answer_known hanswer
      simp only [hmembers]
      rw [outcome_invokeWith] at hinvoke
      cases hcall : store.callType? ⟨callee, args⟩ with
      | some known =>
          rw [hcall] at hinvoke
          cases hinvoke
          have hanswer' : answer store'.result? callee args = some ty :=
            answer_mono hcovers.result? hanswer
          have hjoin : joinKnown store'.result? args members .unknown = some ty := by
            obtain ⟨members', hmembers', hjoin⟩ := Option.bind_eq_some_iff.mp hanswer'
            cases hmembers.symm.trans hmembers'
            exact hjoin
          obtain ⟨counters, houtcome⟩ := joinResults_of_known settings depth waiting args hjoin
          have hbetween := hcovers.counters store.counters counters
          rw [houtcome]
          have hknown := answer_mono hbetween.result? hanswer
          exact ⟨_, rfl, (hbetween.remember_right hknown).counters _ counters⟩
      | none =>
          simp only [hcall, hmembers] at hinvoke
          rcases hjoin : outcome (Session.joinResults specialize args members .unknown) store with
            ⟨error | joined, between⟩
          · rw [hjoin] at hinvoke
            cases hinvoke
          · rw [hjoin] at hinvoke
            cases hinvoke
            obtain ⟨between', houtcome, hbetween⟩ := h.joinResults hserves hserves' args hcovers hjoin
            rw [houtcome]
            have hknown := hserves.joinResults_known args hjoin
            have hknown' := hserves'.joinResults_known args houtcome
            refine ⟨_, rfl, (hbetween.remember_left ?_).remember_right ?_⟩
            · exact Option.bind_eq_some_iff.mpr ⟨members, hmembers, hknown⟩
            · exact Option.bind_eq_some_iff.mpr ⟨members, hmembers, hknown'⟩

end Invoke

section Build

variable {specialize specialize' : Request → Session Specialization}

-- Two sessions, of which the second one covers the first. Only the first one may stop.
def covering (defs defs' : List Func) : Comparison :=
  .agreeing (Covers defs defs') (fun _ => True) fun _ => False

theorem RetainsCalls.answers
    (h : RetainsCalls defs defs' (invokeWith specialize) (invokeWith specialize'))
    (hserves : Serves (Sound defs) specialize) (hserves' : Serves (Sound defs') specialize')
    (hcovers : Covers defs defs' store store') (callee : Ty) (args : List Ty) :
    (covering defs defs').Answers store store' (outcome (invokeWith specialize callee args) store)
      (outcome (invokeWith specialize' callee args) store') := by
  have hgrows := (hserves.leads_invokeWith (kept_sound {} defs) store callee args).1
  have hgrows' := (hserves'.leads_invokeWith (kept_sound {} defs') store' callee args).1
  rcases hleft : outcome (invokeWith specialize callee args) store with ⟨error | ty, later⟩
  · rcases outcome (invokeWith specialize' callee args) store' with ⟨error' | ty', later'⟩
    · exact Or.inl trivial
    · trivial
  · obtain ⟨later', hright, hlater⟩ := h hcovers hleft
    rw [hleft] at hgrows
    rw [hright] at hgrows' ⊢
    exact ⟨rfl, hlater, hgrows.fresh, hgrows'.fresh⟩

theorem RetainsCalls.agrees
    (h : RetainsCalls defs defs' (invokeWith specialize) (invokeWith specialize'))
    (hserves : Serves (Sound defs) specialize) (hserves' : Serves (Sound defs') specialize')
    {limit limit' : Nat} (hlimit : limit ≤ limit') :
    Comparison.Agrees (Covers defs defs') (fun _ => True) (fun _ => False)
      { loopLimit := limit, invoke := invokeWith specialize }
      { loopLimit := limit', invoke := invokeWith specialize' } where
  fresh _ _ hcovers := hcovers.fresh _ _
  registered := by
    intro left right name hcovers
    by_cases hname : left.funcs.contains name = true
    · exact Or.inl (hname.trans (hcovers.names name hname).symm)
    · rw [if_neg hname]
      exact Or.inr trivial
  invoke callee args hcovers := h.answers hserves hserves' hcovers callee args
  lifted op args hcovers := by
    rw [Comparison.outcome_lifted, Comparison.outcome_lifted]
    exact (h.answers hserves hserves' (hcovers.withWrapper op) _ args).of_withWrapper
  limit_lt _ _ := trivial
  limit_gt hlt := absurd hlimit (Nat.not_le_of_lt hlt)

-- A build that succeeds does so in every session that covers the first, also
-- with more passes over its loops.
theorem RetainsCalls.build
    (hinvoke : RetainsCalls defs defs' (invokeWith specialize) (invokeWith specialize'))
    (hloops : limits.maxLoopIterations ≤ limits'.maxLoopIterations)
    (hserves : Serves (Sound defs) specialize) (hserves' : Serves (Sound defs') specialize')
    {func func' : Func} {args : List Ty} {later : Store} {spec : Specialization}
    (hsame : func.Same func') (hcovers : Covers defs defs' store store')
    (h : outcome (Session.build (.ofLimits limits) (invokeWith specialize) func args) store =
      (.ok spec, later)) :
    ∃ spec' later',
      outcome (Session.build (.ofLimits limits') (invokeWith specialize') func' args) store' =
        (.ok spec', later') ∧ Covers defs defs' later later' := by
  obtain ⟨last, hannotate, heq⟩ := annotate_of_build h
  have hends := (hinvoke.agrees hserves hserves' hloops).respects.annotate hsame trivial args
    (inferring store) (inferring store') (hcovers.counters _ _) trivial
  rw [hannotate] at hends
  rcases hannotate' : outcome (func'.annotate
    { loopLimit := limits'.maxLoopIterations, invoke := invokeWith specialize' } args)
    (inferring store') with ⟨error | spec', last'⟩
  · rw [hannotate'] at hends
    exact hends.elim
  · rw [hannotate'] at hends
    refine ⟨spec', passing last', ?_, ?_⟩
    · rw [outcome_build_ofLimits, hannotate', Outcome.andThen_ok]
    · rw [heq]
      exact hends.agree.counters _ _

end Build

-- What the other session has is served from its cache, and nothing that it
-- does not have is built on the first side.
theorem retained_of_has {settings : Settings} {depth depth' : Nat} {waiting waiting' : List Request}
    {request : Request} {store store' later : Store} {spec : Specialization}
    (hcovers : Covers defs defs' store store') (hhas : store'.Has request)
    (h : outcome (specializeWithin (.ofLimits limits) depth waiting request) store =
      (.ok spec, later)) :
    ∃ spec' later', outcome (specializeWithin settings depth' waiting' request) store' =
      (.ok spec', later') ∧ Covers defs defs' later later' := by
  have hinside := specializeWithin_inside limits depth waiting request store hcovers hhas
  rw [h] at hinside
  obtain ⟨spec', hspec'⟩ := hhas
  exact ⟨spec', hitCache store', outcome_specializeWithin_cached hspec', hinside.hit⟩

-- What one session serves, at some depth, the other one serves at any depth that
-- is not smaller.
theorem specializeWithin_retained
    (hloops : limits.maxLoopIterations ≤ limits'.maxLoopIterations) (depth : Nat) :
    ∀ {depth'} waiting, depth ≤ depth' →
      Retains defs defs' (specializeWithin (.ofLimits limits) depth waiting)
        (specializeWithin (.ofLimits limits') depth' waiting) := by
  induction depth with
  | zero =>
      intro depth' waiting _ request store store' spec later hcovers h
      by_cases hhas' : store'.Has request
      · exact retained_of_has hcovers hhas' h
      · have hnew := Store.not_has_iff.mp fun hhas => hhas' (hcovers.requests request hhas)
        obtain ⟨below, -, -, -, hdepth, -⟩ := built_of_specializeWithin hnew h
        cases hdepth
  | succ depth ih =>
      intro depth' waiting hdepth request store store' spec later hcovers h
      by_cases hhas' : store'.Has request
      · exact retained_of_has hcovers hhas' h
      · obtain ⟨depth', rfl⟩ : ∃ below, depth' = below + 1 := ⟨depth' - 1, by omega⟩
        have hserves := serves_specializeWithin (kept_sound limits defs)
        have hserves' := serves_specializeWithin (kept_sound limits' defs')
        have hsound := ((hserves (depth + 1) waiting).leads request store).2 hcovers.left
        have hsound' := ((hserves' (depth' + 1) waiting).leads request store').2 hcovers.right
        have hnew := Store.not_has_iff.mp fun hhas => hhas' (hcovers.requests request hhas)
        have hnew' := Store.not_has_iff.mp hhas'
        obtain ⟨_, func, built, between, ⟨⟩, hwaiting, hfunc, hbuild, hkeep⟩ :=
          built_of_specializeWithin hnew h
        obtain ⟨func', hfunc'⟩ := NameMap.contains_iff.mp
          (hcovers.names _ (NameMap.contains_iff.mpr ⟨func, hfunc⟩))
        -- Both build. Calls in the one go in lockstep with calls in the other.
        have hinvoke := Retains.invokeWith (ih (request :: waiting) (Nat.le_of_succ_le_succ hdepth))
          (hserves depth _) (hserves' depth' _) fun _ => specializeWithin_inside limits depth _
        obtain ⟨built', between', hbuild', hbetween⟩ :=
          hinvoke.build hloops (hserves depth _) (hserves' depth' _)
            (hcovers.sameFuncs hfunc hfunc') hcovers hbuild
        rw [outcome_specializeWithin_new hnew' hwaiting hfunc', hbuild', Outcome.andThen_ok]
          at hsound' ⊢
        have hlater : (outcome (keep request built) between).2 = later := by rw [hkeep]
        rw [h] at hsound
        obtain ⟨spec', hkeep'⟩ := outcome_keep_ok request built' between'
        have hkept := (hbetween.keep_right hsound').keep_left (hlater ▸ hsound)
          (Covers.has_keep.mpr (Or.inl rfl))
        exact ⟨spec', _, hkeep', hlater ▸ hkept⟩

-- A session that has only registered functions so far.
structure Registered (defs : List Func) (store : Store) : Prop where
  sound : Sound defs store
  built : store.built = []
  names : ∀ name, store.funcs.contains name = true → ∃ func ∈ defs, func.name = name

theorem Registered.register {func known : Func} {later : Store} (h : Registered defs store)
    (hregister : outcome (Session.register func) store = (.ok known, later)) :
    Registered (func :: defs) later := by
  have hsound := (lasting_sound {}).register h.sound hregister
  rw [outcome_register] at hregister
  split at hregister
  · split at hregister
    · cases hregister
      refine ⟨hsound, h.built, fun name hname => ?_⟩
      obtain ⟨other, hother, hrest⟩ := h.names name hname
      exact ⟨other, List.mem_cons_of_mem _ hother, hrest⟩
    · cases hregister
  · cases hregister
    refine ⟨hsound, h.built, fun name hname => ?_⟩
    obtain ⟨kept, hkept⟩ := NameMap.contains_iff.mp hname
    rw [NameMap.find?_insert] at hkept
    split at hkept
    · rename_i heq
      exact ⟨func, List.mem_cons_self, heq⟩
    · obtain ⟨other, hother, hrest⟩ := h.names name (NameMap.contains_iff.mpr ⟨kept, hkept⟩)
      exact ⟨other, List.mem_cons_of_mem _ hother, hrest⟩

def registerAll : List Func → Session Unit
  | [] => return ()
  | func :: rest => do
    let _ ← register func
    registerAll rest

theorem Registered.registerAll : ∀ {rest defs : List Func} {store later : Store},
    Registered defs store → outcome (RankPoly.registerAll rest) store = (.ok (), later) →
      Registered (rest.reverse ++ defs) later
  | [], defs, store, later, h, hregister => by
      cases hregister
      exact h
  | func :: rest, defs, store, later, h, hregister => by
      rw [RankPoly.registerAll, outcome_bind] at hregister
      rcases hfirst : outcome (Session.register func) store with ⟨error | known, between⟩
      · rw [hfirst] at hregister
        cases hregister
      · rw [hfirst, Outcome.andThen_ok] at hregister
        have hrest := Registered.registerAll (h.register hfirst) hregister
        rwa [List.reverse_cons, List.append_assoc]

theorem Registered.covers (h : Registered defs store) (hstore' : Sound defs' store')
    (hdefs : SameDefs defs defs') : Covers defs defs' store store' where
  left := h.sound
  right := hstore'
  defs := hdefs
  names := by
    intro name hname
    obtain ⟨func, hfunc, rfl⟩ := h.names name hname
    obtain ⟨func', hfunc', hsame⟩ := hdefs.1 func hfunc
    obtain ⟨kept, hkept, -⟩ := hstore'.registry.known func' hfunc'
    rw [(Func.Same.of_same hsame).name]
    exact NameMap.contains_iff.mpr ⟨kept, hkept⟩
  requests := by
    rintro request ⟨spec, hspec⟩
    have hmem := mem_of_specialization? hspec
    rw [h.built] at hmem
    cases hmem

-- What a session gives that has only registered functions so far, any session
-- gives in which the same ones have been registered, and in which no limit is
-- smaller. It does not matter what that session was asked before, nor whether
-- it could answer.
theorem specialize_retained {limits limits' : Limits} {defs defs' : List Func}
    {start store' later : Store} (hstart : outcome (registerAll defs) {} = (.ok (), start))
    (hstore' : Reachable (.ofLimits limits') defs' store') (hdefs : SameDefs defs defs')
    (hloops : limits.maxLoopIterations ≤ limits'.maxLoopIterations)
    (hdepth : limits.maxDepth ≤ limits'.maxDepth) {name : String} {args : List Ty}
    {spec : Specialization}
    (h : outcome (specialize (.ofLimits limits) name args) start = (.ok spec, later)) :
    ∃ spec' later', outcome (specialize (.ofLimits limits') name args) store' =
      (.ok spec', later') ∧ spec'.returnType = spec.returnType ∧ spec'.inputs = spec.inputs := by
  have hregistered : Registered (defs.reverse ++ []) start :=
    Registered.registerAll ⟨(lasting_sound {}).start, rfl, fun _ h => nomatch h⟩ hstart
  have hdefs : SameDefs (defs.reverse ++ []) defs' := by simpa [SameDefs] using hdefs
  have hcovers := hregistered.covers ((lasting_sound limits').of_reachable hstore') hdefs
  rw [outcome_specialize] at h ⊢
  split at h
  · rename_i hname
    obtain ⟨spec', later', h', hlater⟩ := specializeWithin_retained hloops _ [] hdepth hcovers h
    have hrenamed := hlater.renamed (specializeWithin_found h) (specializeWithin_found h')
    rw [if_pos (hcovers.names name hname)]
    exact ⟨spec', later', h', hrenamed.returnType_eq.symm, hrenamed.inputs_eq.symm⟩
  · cases h

-- A loop that settles in its second pass, in a session that was first asked to
-- call the function without an argument.
theorem specialize_halve_retained :
    let limits : Limits := { maxLoopIterations := 2, maxDepth := 1 }
    let store' := [.register Demo.halve, .specialize "halve" [],
      .specialize "halve" [.scalar .f64]].foldl (Operation.after (.ofLimits {})) {}
    ∃ start spec later spec' later',
      outcome (registerAll [Demo.halve]) {} = (.ok (), start) ∧
      outcome (specialize (.ofLimits limits) "halve" [.scalar .i64]) start = (.ok spec, later) ∧
      outcome (specialize (.ofLimits {}) "halve" [.scalar .i64]) store' = (.ok spec', later') ∧
      spec'.returnType = spec.returnType ∧ spec'.inputs = spec.inputs := by
  intro limits store'
  have hstart : outcome (registerAll [Demo.halve]) {} = (.ok (), _) := rfl
  have hstore' : Reachable (.ofLimits {}) [Demo.halve] store' :=
    .step (.specialize "halve" [.scalar .f64]) (.step (.specialize "halve" [])
      (.step (.register Demo.halve) .start))
  have hdefs : SameDefs [Demo.halve] [Demo.halve] := .of_forall (by decide +kernel)
  obtain ⟨spec, later, h⟩ := Outcome.exists_ok
    (o := outcome (specialize (.ofLimits limits) "halve" [.scalar .i64])
      (outcome (registerAll [Demo.halve]) {}).2) (by decide +kernel)
  obtain ⟨spec', later', h', heq⟩ :=
    specialize_retained hstart hstore' hdefs (by decide) (by decide) h
  exact ⟨_, spec, later, spec', later', hstart, h, h', heq⟩

end RankPoly
