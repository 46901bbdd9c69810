import RankPoly.Proofs.Session.Coherent
import RankPoly.Proofs.Session.Grounded

namespace RankPoly

open Session

theorem Prim.name_injective : Function.Injective Prim.name := by
  have h : ∀ op : Prim, Prim.ofName? op.name = some op := by
    intro op
    cases op <;> rfl
  intro op op' heq
  exact Option.some.inj ((h op).symm.trans (heq ▸ h op'))

theorem wrapperName_injective : Function.Injective wrapperName := by
  intro op op' h
  exact Prim.name_injective ((String.append_right_inj _).mp h)

-- The functions of a session: those that were registered, and under free names
-- the wrappers of operators.
structure Registry (defs : List Func) (funcs : NameMap Func) : Prop where
  known : ∀ func ∈ defs, ∃ kept, funcs.find? func.name = some kept ∧ kept.Same func
  origin : ∀ {name kept}, funcs.find? name = some kept →
    (∃ func ∈ defs, func.name = name ∧ kept.Same func) ∨
      (∀ func ∈ defs, func.name ≠ name) ∧ ∃ op, name = wrapperName op ∧ kept = wrapper op

-- The same functions, up to how equal numbers are written.
def SameDefs (defs defs' : List Func) : Prop :=
  (∀ func ∈ defs, ∃ func' ∈ defs', func.same func') ∧
    ∀ func' ∈ defs', ∃ func ∈ defs, func'.same func

theorem SameDefs.of_forall {defs : List Func} (h : ∀ func ∈ defs, func.same func = true) :
    SameDefs defs defs :=
  ⟨fun func hfunc => ⟨func, hfunc, h func hfunc⟩, fun func hfunc => ⟨func, hfunc, h func hfunc⟩⟩

namespace Registry

variable {defs defs' : List Func} {funcs funcs' : NameMap Func}

theorem addWrapper (h : Registry defs funcs) {op : Prim}
    (hfree : funcs.find? (wrapperName op) = none) :
    Registry defs (funcs.insert (wrapperName op) (wrapper op)) where
  known func hfunc := by
    obtain ⟨kept, hkept, hsame⟩ := h.known func hfunc
    exact ⟨kept, NameMap.find?_insert_of_free hfree hkept, hsame⟩
  origin := by
    intro name kept hkept
    rw [NameMap.find?_insert] at hkept
    split at hkept
    · rename_i heq
      cases hkept
      refine Or.inr ⟨fun func hfunc hname => ?_, op, heq.symm, rfl⟩
      obtain ⟨kept, hkept, -⟩ := h.known func hfunc
      simp [hname, ← heq, hfree] at hkept
    · exact h.origin hkept

-- What both sides know under a name is the same on both.
theorem sameFuncs_of_same (h : Registry defs funcs) (h' : Registry defs' funcs')
    (hdefs : ∀ func ∈ defs, ∃ func' ∈ defs', func.Same func')
    (hdefs' : ∀ func' ∈ defs', ∃ func ∈ defs, func.name = func'.name) : SameFuncs funcs funcs' := by
  intro name kept kept' hkept hkept'
  rcases h.origin hkept with ⟨func, hfunc, rfl, hsame⟩ | ⟨hnone, op, rfl, rfl⟩
  · obtain ⟨func', hfunc', heq⟩ := hdefs func hfunc
    obtain ⟨other, hother, hsame'⟩ := h'.known func' hfunc'
    rw [← heq.name, hkept'] at hother
    cases hother
    exact hsame.euclid (hsame'.euclid heq)
  · rcases h'.origin hkept' with ⟨func', hfunc', hname, -⟩ | ⟨-, op', hname, rfl⟩
    · obtain ⟨func, hfunc, heq⟩ := hdefs' func' hfunc'
      exact absurd (heq.trans hname) (hnone func hfunc)
    · cases wrapperName_injective hname
      exact .refl _

theorem sameFuncs (h : Registry defs funcs) (h' : Registry defs' funcs')
    (hdefs : SameDefs defs defs') : SameFuncs funcs funcs' := by
  refine h.sameFuncs_of_same h' (fun func hfunc => ?_) fun func' hfunc' => ?_
  · obtain ⟨func', hfunc', hsame⟩ := hdefs.1 func hfunc
    exact ⟨func', hfunc', .of_same hsame⟩
  · obtain ⟨func, hfunc, hsame⟩ := hdefs.2 func' hfunc'
    exact ⟨func, hfunc, (Func.Same.of_same hsame).name.symm⟩

-- Another function leaves what goes by other names where it comes from.
theorem origin_cons (h : Registry defs funcs) {func kept : Func} {name : String}
    (hname : func.name ≠ name) (hfound : funcs.find? name = some kept) :
    (∃ other ∈ func :: defs, other.name = name ∧ kept.Same other) ∨
      (∀ other ∈ func :: defs, other.name ≠ name) ∧
        ∃ op, name = wrapperName op ∧ kept = wrapper op := by
  rcases h.origin hfound with ⟨other, hother, hrest⟩ | ⟨hnone, hop⟩
  · exact Or.inl ⟨other, List.mem_cons_of_mem _ hother, hrest⟩
  · exact Or.inr ⟨List.forall_mem_cons.mpr ⟨hname, hnone⟩, hop⟩

theorem register {store later : Store} (h : Registry defs store.funcs) {func known : Func}
    (hregister : outcome (Session.register func) store = (.ok known, later)) :
    Registry (func :: defs) later.funcs := by
  rw [outcome_register] at hregister
  split at hregister
  · rename_i kept hkept
    split at hregister
    · rename_i hsame
      cases hregister
      have hsame : known.Same func := .of_same hsame
      refine ⟨?_, ?_⟩
      · rintro other hother
        rcases List.mem_cons.mp hother with rfl | hother
        · exact ⟨known, hkept, hsame⟩
        · exact h.known other hother
      · intro name kept hfound
        by_cases hname : func.name = name
        · cases hname
          cases hkept.symm.trans hfound
          exact Or.inl ⟨func, List.mem_cons_self, rfl, hsame⟩
        · exact h.origin_cons hname hfound
    · cases hregister
  · rename_i hfree
    cases hregister
    refine ⟨?_, ?_⟩
    · rintro other hother
      rcases List.mem_cons.mp hother with rfl | hother
      · exact ⟨other, NameMap.find?_insert_self _ _ _, .refl other⟩
      · obtain ⟨kept, hkept, hsame⟩ := h.known other hother
        exact ⟨kept, NameMap.find?_insert_of_free hfree hkept, hsame⟩
    · intro name kept hfound
      rw [NameMap.find?_insert] at hfound
      split at hfound
      · rename_i hname
        cases hfound
        exact Or.inl ⟨func, List.mem_cons_self, hname, .refl func⟩
      · rename_i hname
        exact h.origin_cons hname hfound

end Registry

-- What holds of the store between any two steps of a session without passes
-- that change something.
structure Sound (defs : List Func) (store : Store) : Prop where
  registry : Registry defs store.funcs
  grounded : Grounded store.funcs store.built
  coherent : store.Coherent

section Replay

variable {settings : Settings} {depth : Nat} {waiting : List Request} {last : Store}

-- Work in a session up to its last store, set against a replay on what that store has.
def recorded (last : Store) : Comparison :=
  { Correspondence.same with
    agree := fun store store' => store.Coherent ∧ store'.funcs = last.funcs
    grows := Store.Grows
    within := fun store => store.Grows last
    held := fun _ _ _ => True
    leftFree := fun _ => True
    rightFree := fun _ => False }

theorem recorded_answers {store store' : Store} (hstore : store.Coherent)
    (hfuncs : store'.funcs = last.funcs) (callee : Ty) (args : List Ty)
    (hlast : (outcome (invokeWith (specializeWithin settings depth waiting) callee args)
      store).2.Grows last) :
    (recorded last).Answers store store'
      (outcome (invokeWith (specializeWithin settings depth waiting) callee args) store)
      (outcome (replaying last.built callee args) store') := by
  have hserves := serves_specializeWithin (kept_coherent settings) depth waiting
  have hlead := hserves.leads_invokeWith (kept_coherent settings) store callee args
  rw [outcome_replaying]
  rcases hinvoke : outcome (invokeWith (specializeWithin settings depth waiting) callee args) store
    with ⟨error | ty, later⟩ <;> rw [hinvoke] at hlead hlast
  · split
    · trivial
    · exact Or.inl trivial
  · have hanswer := hlast.answer (invokeWith_answer hserves hstore hinvoke)
    change answer (resultIn last.built) callee args = some ty at hanswer
    rw [hanswer]
    exact ⟨rfl, ⟨hlead.2 hstore, hfuncs⟩, hlead.1.fresh, le_rfl⟩

theorem recorded_respects (settings : Settings) (depth : Nat) (waiting : List Request)
    (limit : Nat) (last : Store) :
    (recorded last).Respects
      { loopLimit := limit, invoke := invokeWith (specializeWithin settings depth waiting) }
      { loopLimit := limit, invoke := replaying last.built } where
  grows_refl := .refl
  grows_trans := .trans
  within_of_grows := .trans
  grows_fresh store name := ⟨id, id, by simp⟩
  grows_invoke store callee args := grows_invokeWith settings depth waiting callee args store
  grows_lifted := by
    intro store op args
    rw [Comparison.outcome_lifted]
    exact (Leads.withWrapper (kept_coherent settings) store op).1.trans
      (grows_invokeWith settings depth waiting _ args _)
  agree_fresh _ _ h := h
  asked_var _ := trivial
  held_refresh _ _ := trivial
  held_grows _ _ := trivial
  errors_of_alike h := h
  registered := by
    intro store store' name h hlast
    by_cases hname : store.funcs.contains name = true
    · refine Or.inl ?_
      rw [hname, h.2, hlast.contains hname]
    · rw [if_neg hname]
      exact Or.inr trivial
  invoke callee args h hlast := recorded_answers h.1 h.2 callee args hlast
  lifted := by
    intro store store' op args h hlast
    rw [Comparison.outcome_lifted] at hlast
    rw [Comparison.outcome_lifted, Comparison.outcome_lifted]
    refine (recorded_answers ?_ ?_ _ args hlast).of_withWrapper
    · exact (Leads.withWrapper (kept_coherent settings) store op).2 h.1
    · have hgrows := grows_invokeWith settings depth waiting (.closure ⟨wrapperName op, []⟩) args
        (withWrapper op store)
      have hname := (hgrows.trans hlast).contains (contains_withWrapper op store)
      rw [withWrapper_of_contains (h.2 ▸ hname), h.2]
  limit_lt h := (Nat.lt_irrefl _ h).elim
  limit_gt h := (Nat.lt_irrefl _ h).elim

-- What an annotation in a session gives is given again by a replay on the
-- specializations that the session has at its end.
theorem replayed_of_annotate {limit : Nat} {func : Func} {args : List Ty} {store : Store}
    {spec : Specialization} (hstore : store.Coherent)
    (h : outcome
      (func.annotate
        { loopLimit := limit, invoke := invokeWith (specializeWithin settings depth waiting) } args)
      store = (.ok spec, last)) :
    ∃ again later,
      outcome (func.annotate { loopLimit := limit, invoke := replaying last.built } args)
        { funcs := last.funcs } = (.ok again, later) ∧ spec.Renamed again := by
  have hends := (recorded_respects settings depth waiting limit last).annotate
    (Func.Same.refl func) trivial args store { funcs := last.funcs } ⟨hstore, rfl⟩
    (by rw [h]; exact .refl last)
  rw [h] at hends
  rcases hreplay : outcome (func.annotate { loopLimit := limit, invoke := replaying last.built } args)
    { funcs := last.funcs } with ⟨error | again, later⟩
  · rw [hreplay] at hends
    exact hends.elim
  · rw [hreplay] at hends
    exact ⟨again, later, rfl, hends.alike⟩

end Replay

-- Settings whose passes change nothing.
def Settings.ofLimits (limits : Limits) : Settings := { limits }

-- The store once both passes have run.
def passing (store : Store) : Store :=
  { store with
    counters :=
      { store.counters with
        coercionRuns := store.counters.coercionRuns + 1
        optimizerRuns := store.counters.optimizerRuns + 1 } }

theorem outcome_build_ofLimits (limits : Limits) (invoke : Ty → List Ty → Session Ty)
    (func : Func) (args : List Ty) (store : Store) :
    outcome (build (.ofLimits limits) invoke func args) store =
      (outcome (func.annotate { loopLimit := limits.maxLoopIterations, invoke } args)
        (inferring store)).andThen fun spec later => (.ok spec, passing later) :=
  outcome_build _ _ _ _ _

theorem annotate_of_build {limits : Limits} {invoke : Ty → List Ty → Session Ty} {func : Func}
    {args : List Ty} {store later : Store} {spec : Specialization}
    (h : outcome (build (.ofLimits limits) invoke func args) store = (.ok spec, later)) :
    ∃ last,
      outcome (func.annotate { loopLimit := limits.maxLoopIterations, invoke } args)
        (inferring store) = (.ok spec, last) ∧ later = passing last := by
  rw [outcome_build_ofLimits] at h
  rcases hannotate : outcome (func.annotate { loopLimit := limits.maxLoopIterations, invoke } args)
    (inferring store) with ⟨error | given, last⟩ <;> rw [hannotate] at h <;> cases h
  exact ⟨last, rfl, rfl⟩

theorem kept_sound (limits : Limits) (defs : List Func) :
    Kept (.ofLimits limits) (Sound defs) where
  counters _ h := ⟨h.registry, h.grounded, h.coherent⟩
  fresh _ _ h := ⟨h.registry, h.grounded, h.coherent⟩
  wrapper op h hfree :=
    ⟨h.registry.addWrapper hfree, h.grounded.mono (Store.Grows.insert hfree).funcs, h.coherent⟩
  remember _ _ _ h hanswer := ⟨h.registry, h.grounded, h.coherent.remember hanswer⟩
  keep := by
    intro store later depth waiting request func spec hstore hlater hgrows hnew hfunc _ hbuild
    refine ⟨hlater.registry, .cons hlater.grounded ?_, hlater.coherent.keep hnew⟩
    obtain ⟨last, hannotate, heq⟩ := annotate_of_build hbuild
    have hinferring : (inferring store).Coherent := hstore.coherent
    obtain ⟨again, end', hagain, hrenamed⟩ := replayed_of_annotate hinferring hannotate
    have hfunc := hgrows.funcs hfunc
    rw [heq] at hfunc ⊢
    exact ⟨func, _, _, again, end', hfunc, hagain, hrenamed⟩

end RankPoly
