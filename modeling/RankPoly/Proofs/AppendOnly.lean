import RankPoly.Demo
import RankPoly.Proofs.Session.InFlight
import RankPoly.Proofs.Session.Reachable

namespace RankPoly

open Session

def Outcome.error? {α : Type} : Outcome α → Option SpecializeError
  | (.error error, _) => some error
  | (.ok _, _) => none

theorem Outcome.eq_of_error? {α : Type} {o : Outcome α} {error : SpecializeError}
    (h : o.error? = some error) : o = (.error error, o.2) := by
  rcases o with ⟨error' | a, later⟩
  · cases h
    rfl
  · cases h

namespace Operation

-- The error of an operation that fails.
def error? (settings : Settings) (store : Store) : Operation → Option SpecializeError
  | .register func => (outcome (Session.register func) store).error?
  | .specialize name args => (outcome (Session.specialize settings name args) store).error?
  | .specializeFunc func args => (outcome (Session.specializeFunc settings func args) store).error?
  | .returnType name args => (outcome (Session.returnType settings name args) store).error?
  | .invocationType callee args =>
    (outcome (Session.invocationType settings callee args) store).error?
  | .primWrapper op => (outcome (Session.primWrapper op) store).error?

-- The specialization that an operation asks for. A definition that is refused has none,
-- as its name is that of another function.
def asked (store : Store) : Operation → Option Request
  | .specialize name args | .returnType name args => some ⟨name, args⟩
  | .specializeFunc func args =>
    match outcome (Session.register func) store with
    | (.ok known, _) => some ⟨known.name, args⟩
    | (.error _, _) => none
  | _ => none

-- The requests in flight when an operation fails, which makes some of its own. There
-- are none if the error is not that of a request.
inductive InFlight (settings : Settings) (store : Store) (op : Operation)
    (error : SpecializeError) : List Request → Prop where
  | raised :
      Course (specializeWithin settings settings.limits.maxDepth []) (op.entered store)
        (op.after settings store) →
      InFlight settings store op error []
  | nested {request : Request} {reached : Store} {stack : List Request} :
      Course (specializeWithin settings settings.limits.maxDepth []) (op.entered store) reached →
      Session.InFlight settings error (op.after settings store) settings.limits.maxDepth [] request
        reached stack →
      InFlight settings store op error stack

end Operation

section Failures

variable {settings : Settings} {store : Store} {op : Operation} {error : SpecializeError}
  {request : Request}

theorem Session.specialize_failed {name : String} {args : List Ty} {later : Store}
    (h : outcome (Session.specialize settings name args) store = (.error error, later)) :
    store.funcs.contains name = false ∧ later = store ∨
      outcome (specializeWithin settings settings.limits.maxDepth [] ⟨name, args⟩) store =
        (.error error, later) := by
  rw [outcome_specialize] at h
  split at h
  · exact Or.inr h
  · rename_i hname
    cases h
    exact Or.inl ⟨by simpa using hname, rfl⟩

-- What an operation asks for is what fails if the operation does.
theorem Operation.asked_failed (h : op.error? settings store = some error)
    (hasked : op.asked store = some request) :
    outcome (Session.specialize settings request.func request.args) (op.entered store) =
      (.error error, op.after settings store) := by
  cases op with
  | specialize name args =>
      cases hasked
      exact Outcome.eq_of_error? h
  | returnType name args =>
      cases hasked
      simp only [Operation.error?, Operation.after, Operation.entered, outcome_returnType] at h ⊢
      rcases hspec : outcome (Session.specialize settings name args) store
        with ⟨error' | spec, later⟩ <;> rw [hspec] at h
      · cases h
        rfl
      · cases h
  | specializeFunc func args =>
      simp only [Operation.error?, Operation.after, Operation.entered, Operation.asked,
        outcome_specializeFunc] at h hasked ⊢
      rcases hregister : outcome (Session.register func) store with ⟨error' | known, later⟩ <;>
        rw [hregister] at h hasked
      · cases hasked
      · cases hasked
        exact Outcome.eq_of_error? h
  | register | invocationType | primWrapper => cases hasked

-- Whatever else fails does so on a course of its own.
theorem Operation.failsAlong (h : op.error? settings store = some error)
    (hasked : op.asked store = none) :
    FailsAlong (specializeWithin settings settings.limits.maxDepth []) (op.entered store) error
      (op.after settings store) := by
  cases op with
  | register func => exact .raised .first
  | invocationType callee args =>
      have hfirst : Course (specializeWithin settings settings.limits.maxDepth []) store store :=
        .first
      have hleaves := hfirst.invokeWith_leaves callee args
      have houtcome : outcome (invokeWith (specializeWithin settings settings.limits.maxDepth [])
        callee args) store = (.error error, _) := Outcome.eq_of_error? h
      rw [houtcome] at hleaves
      exact hleaves
  | specializeFunc func args =>
      simp only [Operation.after, Operation.entered, Operation.asked, outcome_specializeFunc]
        at hasked ⊢
      rcases hregister : outcome (Session.register func) store with ⟨error' | known, later⟩ <;>
        rw [hregister] at hasked
      · exact .raised .first
      · cases hasked
  | specialize | returnType => cases hasked
  | primWrapper op =>
      simp only [Operation.error?, outcome_primWrapper] at h
      cases h

-- Some requests are in flight when an operation fails, and the one that it asks for is
-- among them if there is such a function.
theorem Operation.exists_inFlight (h : op.error? settings store = some error) :
    ∃ stack, op.InFlight settings store error stack ∧ ∀ request, op.asked store = some request →
      (op.entered store).funcs.contains request.func = true → request ∈ stack := by
  cases hasked : op.asked store with
  | none =>
      cases Operation.failsAlong h hasked with
      | raised hcourse => exact ⟨[], .raised hcourse, nofun⟩
      | nested hcourse hnested =>
          obtain ⟨stack, hstack⟩ := Session.exists_inFlight hnested
          exact ⟨stack, .nested hcourse hstack, nofun⟩
  | some request =>
      rcases Session.specialize_failed (Operation.asked_failed h hasked)
        with ⟨hname, hafter⟩ | hnested
      · refine ⟨[], .raised (hafter ▸ .first), fun request' heq hname' => ?_⟩
        cases heq
        cases hname.symm.trans hname'
      · obtain ⟨stack, hstack⟩ := Session.exists_inFlight hnested
        refine ⟨stack, .nested .first hstack, fun request' heq _ => ?_⟩
        cases heq
        exact hstack.suffix.subset List.mem_cons_self

theorem Operation.InFlight.unbuilt {stack : List Request}
    (h : op.InFlight settings store error stack) :
    ∀ pending ∈ stack, (op.after settings store).specialization? pending = none := by
  cases h with
  | raised => exact List.forall_mem_nil _
  | nested _ hstack => exact hstack.unbuilt (List.forall_mem_nil _)

end Failures

-- Only registered functions have been specialized.
theorem lasting_registered (settings : Settings) :
    Lasting settings fun _ store => ∀ request spec, store.specialization? request = some spec →
      store.funcs.contains request.func = true where
  start := fun _ _ h => nomatch h
  kept _ :=
    { counters := fun _ h => h
      fresh := fun _ _ h => h
      wrapper := fun op h hname _ spec hspec => (Store.Grows.insert hname).contains (h _ spec hspec)
      remember := fun _ _ _ h _ => h
      keep := by
        intro store later depth waiting request func spec _ hlater hgrows hnew hfunc _ _ pending
          known hknown
        by_cases heq : request = pending
        · subst heq
          exact NameMap.contains_iff.mpr ⟨func, hgrows.funcs hfunc⟩
        · refine hlater pending known ?_
          simpa [Store.specialization?, heq] using hknown }
  register := by
    intro defs store func known later h hregister request spec hspec
    rcases register_ok hregister with rfl | ⟨hfree, rfl⟩
    · exact h request spec hspec
    · exact (Store.Grows.insert hfree).contains (h request spec hspec)

-- All functions that a later store has more than an earlier one are wrappers.
def Store.Wraps (store later : Store) : Prop :=
  ∀ name func, later.funcs.find? name = some func →
    store.funcs.find? name = some func ∨ ∃ op, name = wrapperName op ∧ func = wrapper op

theorem kept_wraps (settings : Settings) (store : Store) : Kept settings store.Wraps where
  counters _ h := h
  fresh _ _ h := h
  wrapper := by
    intro later op h _ name func hfunc
    rw [NameMap.find?_insert] at hfunc
    split at hfunc
    · rename_i hname
      cases hfunc
      exact Or.inr ⟨op, hname.symm, rfl⟩
    · exact h name func hfunc
  remember _ _ _ h _ := h
  keep _ h _ _ _ _ _ := h

-- What holds of the store after an operation, given the one before: nothing is changed
-- or taken away, nothing is kept of what has failed, and all functions that are new are
-- the definition that came with the operation and wrappers of operators.
structure Operation.Appends (settings : Settings) (store : Store) (op : Operation) : Prop where
  funcs : ∀ {name func}, store.funcs.find? name = some func →
    (op.after settings store).funcs.find? name = some func
  built : ∀ {request spec}, store.specialization? request = some spec →
    (op.after settings store).specialization? request = some spec
  added : ∀ {name func}, (op.after settings store).funcs.find? name = some func →
    store.funcs.find? name = some func ∨ func ∈ op.registered store ∧ name = func.name ∨
      ∃ prim, name = wrapperName prim ∧ func = wrapper prim
  refused : ∀ {func error}, op = .register func → op.error? settings store = some error →
    op.after settings store = store
  asked : ∀ {request error}, op.asked store = some request →
    op.error? settings store = some error →
    (op.after settings store).specialization? request = none
  traced : ∀ {error}, op.error? settings store = some error →
    ∃ stack, op.InFlight settings store error stack ∧ ∀ request, op.asked store = some request →
      (op.entered store).funcs.contains request.func = true → request ∈ stack
  unbuilt : ∀ {error stack}, op.InFlight settings store error stack →
    ∀ pending ∈ stack, (op.after settings store).specialization? pending = none

-- Work starts from the store as it is, or with the one definition that is new to it.
theorem Operation.entered_cases (store : Store) (op : Operation) :
    op.entered store = store ∨ ∃ func ∈ op.registered store, store.funcs.find? func.name = none ∧
      op.entered store = { store with funcs := store.funcs.insert func.name func } := by
  have hregister : ∀ func, (outcome (Session.register func) store).2 = store ∨
      ∃ new ∈ (Operation.register func).registered store, store.funcs.find? new.name = none ∧
        (outcome (Session.register func) store).2 =
          { store with funcs := store.funcs.insert new.name new } := by
    intro func
    simp only [Operation.registered]
    rcases hregister : outcome (Session.register func) store with ⟨error | known, later⟩
    · exact Or.inl (register_error hregister)
    · exact (register_ok hregister).imp_right fun hnew => ⟨func, List.mem_singleton_self func, hnew⟩
  cases op with
  | register func | specializeFunc func args => exact hregister func
  | _ => exact Or.inl rfl

theorem Operation.grows_entered (store : Store) (op : Operation) :
    store.Grows (op.entered store) := by
  rcases op.entered_cases store with heq | ⟨func, -, hfree, heq⟩ <;> rw [heq]
  · exact .refl store
  · exact .insert hfree

theorem Operation.funcs_entered {store : Store} {op : Operation} {name : String} {func : Func}
    (h : (op.entered store).funcs.find? name = some func) :
    store.funcs.find? name = some func ∨ func ∈ op.registered store ∧ name = func.name := by
  rcases op.entered_cases store with heq | ⟨new, hnew, -, heq⟩ <;> rw [heq] at h
  · exact Or.inl h
  · rw [NameMap.find?_insert] at h
    split at h
    · rename_i hname
      cases h
      exact Or.inr ⟨hnew, hname.symm⟩
    · exact Or.inl h

-- In whatever session and with whatever passes, operations only ever append, and those
-- that fail leave nothing of what has failed.
theorem operation_appends {settings : Settings} {defs : List Func} {store : Store}
    (hstore : Reachable settings defs store) (op : Operation) : op.Appends settings store := by
  have hgrows := (op.grows_entered store).trans (after_leads (kept_trivial settings) store op).1
  have hwraps := (after_leads (kept_wraps settings (op.entered store)) store op).2 fun _ _ => Or.inl
  have hlasting := lasting_registered settings
  have hregistered :=
    @Lasting.entered settings _ hlasting defs store (hlasting.of_reachable hstore) op
  refine ⟨hgrows.funcs, hgrows.built, fun hfunc => ?_, ?_, ?_, Operation.exists_inFlight,
    Operation.InFlight.unbuilt⟩
  · rcases hwraps _ _ hfunc with hentered | hwrapper
    · exact (Operation.funcs_entered hentered).imp_right Or.inl
    · exact Or.inr (Or.inr hwrapper)
  · rintro func error rfl herror
    exact register_error (Outcome.eq_of_error? herror)
  · intro request error hasked herror
    rcases Session.specialize_failed (Operation.asked_failed herror hasked) with
      ⟨hname, hafter⟩ | hfailed
    · rw [hafter]
      cases hspec : (op.entered store).specialization? request with
      | none => rfl
      | some spec => simp [hregistered request spec hspec] at hname
    · obtain ⟨stack, hstack⟩ := Session.exists_inFlight hfailed
      have hmem : request ∈ stack := hstack.suffix.subset List.mem_cons_self
      exact (Operation.InFlight.nested .first hstack).unbuilt request hmem

-- The outer function is not kept when the inner one fails.
theorem outer_appends :
    let inner := Demo.define "inner" ["x"] [.ret (.var "y")]
    let outer := Demo.define "outer" ["x"] [.ret (.invoke (Demo.named "inner") [.var "x"])]
    let store := [Operation.register inner, .register outer].foldl (Operation.after {}) {}
    let op := Operation.specialize "outer" [.scalar .i64]
    op.InFlight {} store (.unboundName "y")
        [⟨"inner", [.scalar .i64]⟩, ⟨"outer", [.scalar .i64]⟩] ∧ op.Appends {} store := by
  intro inner outer store op
  obtain ⟨defs, hstore⟩ :=
    Reachable.run [.register inner, .register outer] (.start : Reachable {} [] {})
  refine ⟨?_, operation_appends hstore op⟩
  have hreached : Course (specializeWithin {} 255 [⟨"outer", [.scalar .i64]⟩]) store _ :=
    .fresh "x" (.counters { inferences := 1 } .first)
  clear hstore
  subst op store outer inner
  refine .nested .first (.nested rfl hreached (.raised rfl ?_))
  exact .fresh "x" (.counters { inferences := 2 } .first)

end RankPoly
