import RankPoly.Proofs.Renaming.Source
import RankPoly.Proofs.Session.Upheld

namespace RankPoly

open Session

-- Names that were drawn with one number: for a variable and for its new name, or
-- in both cases for the function itself.
def Naming.drawn (var : String → String) (source : String) : Naming := fun m n =>
  ∃ count x y, (y = var x ∨ x = source ∧ y = source) ∧
    m = (Fresh.refresh ⟨count⟩ x).1 ∧ n = (Fresh.refresh ⟨count⟩ y).1

-- Specializations of a function, and of the same function with other names for its
-- variables. They are the same up to what was drawn for the two.
def Specialization.Respelled (var : String → String) (lhs rhs : Specialization) : Prop :=
  ∃ naming : Naming, Relator.BiUnique naming ∧ naming ≤ Naming.drawn var lhs.source ∧
    lhs.Alike naming Eq rhs

-- The stores of two sessions, of which the second one has other names for the variables
-- of each function. A function that may still be added is the same in both.
structure Store.Tandem (var : String → String ↪ String) (store store' : Store) : Prop where
  funcs : ∀ name,
    Option.Rel (fun f f' => f.Alike (Correspondence.renamed (var name)).naming Eq f')
      (store.funcs.find? name) (store'.funcs.find? name)
  spelled : ∀ name, store.funcs.contains name = true ∨ var name = .refl String
  built : ∀ request, Option.Rel (Specialization.Respelled (var request.func))
    (store.specialization? request) (store'.specialization? request)
  calls : ∀ call, store.callType? call = store'.callType? call
  fresh : store.fresh = store'.fresh

variable {α β γ δ : Type} {var : String → String ↪ String} {store store' : Store}

namespace Store.Tandem

theorem contains_eq (h : store.Tandem var store') (name : String) :
    store.funcs.contains name = store'.funcs.contains name := by
  have hfuncs := h.funcs name
  unfold NameMap.contains
  generalize store.funcs.find? name = found at hfuncs ⊢
  generalize store'.funcs.find? name = found' at hfuncs ⊢
  cases hfuncs <;> rfl

-- A request is in both caches or in none.
theorem built_both (h : store.Tandem var store') (request : Request) :
    store.specialization? request = none ∧ store'.specialization? request = none ∨
      ∃ spec spec', store.specialization? request = some spec ∧
        store'.specialization? request = some spec' ∧
        spec.Respelled (var request.func) spec' := by
  have hbuilt := h.built request
  generalize store.specialization? request = known at hbuilt ⊢
  generalize store'.specialization? request = known' at hbuilt ⊢
  cases hbuilt with
  | none => exact Or.inl ⟨rfl, rfl⟩
  | some hspec => exact Or.inr ⟨_, _, rfl, rfl, hspec⟩

theorem counters (h : store.Tandem var store') (counters counters' : Counters) :
    Tandem var { store with counters } { store' with counters := counters' } :=
  ⟨h.funcs, h.spelled, h.built, h.calls, h.fresh⟩

-- One number is drawn on both sides, whatever it is drawn for.
theorem refresh (h : store.Tandem var store') (name name' : String) :
    Tandem var { store with fresh := (store.fresh.refresh name).2 }
      { store' with fresh := (store'.fresh.refresh name').2 } := by
  refine ⟨h.funcs, h.spelled, h.built, h.calls, ?_⟩
  simp only [h.fresh, Fresh.refresh]

-- A wrapper is new to both sides or to none.
theorem withWrapper (h : store.Tandem var store') (op : Prim) :
    Tandem var (Session.withWrapper op store) (Session.withWrapper op store') := by
  have hcontains := h.contains_eq (wrapperName op)
  by_cases hname : store.funcs.contains (wrapperName op) = true
  · rw [withWrapper_of_contains hname, withWrapper_of_contains (hcontains ▸ hname)]
    exact h
  · have hname' : ¬store'.funcs.contains (wrapperName op) = true := hcontains ▸ hname
    have hsame : var (wrapperName op) = .refl String := (h.spelled _).resolve_left hname
    unfold Session.withWrapper
    rw [if_neg hname, if_neg hname']
    refine ⟨fun name => ?_, fun name => ?_, h.built, h.calls, h.fresh⟩
    · simp only [NameMap.find?_insert]
      split
      · rename_i heq
        subst heq
        rw [hsame]
        exact .some (Func.Alike.refl (fun _ => rfl) (wrapper op))
      · exact h.funcs name
    · by_cases heq : wrapperName op = name
      · left
        simp [NameMap.contains, heq]
      · simpa [NameMap.contains, NameMap.find?_insert, heq] using h.spelled name

theorem remember (h : store.Tandem var store') (call : Call) (ty : Ty) :
    Tandem var { store with calls := (call, ty) :: store.calls }
      { store' with calls := (call, ty) :: store'.calls } := by
  refine ⟨h.funcs, h.spelled, h.built, fun other => ?_, h.fresh⟩
  have hrest := h.calls other
  unfold callType? at hrest ⊢
  rw [List.find?_cons, List.find?_cons]
  split
  · rfl
  · exact hrest

theorem keep (h : store.Tandem var store') (request : Request) {spec spec' : Specialization}
    (hspec : spec.Respelled (var request.func) spec') :
    Tandem var { store with built := (request, spec) :: store.built }
      { store' with built := (request, spec') :: store'.built } := by
  refine ⟨h.funcs, h.spelled, fun other => ?_, h.calls, h.fresh⟩
  have hrest := h.built other
  unfold specialization? at hrest ⊢
  rw [List.find?_cons, List.find?_cons]
  by_cases heq : request = other
  · subst heq
    simp only [decide_true]
    exact .some hspec
  · simp only [decide_eq_false heq]
    exact hrest

end Store.Tandem

-- Two outcomes that are a success both or a failure both, in stores that are still in
-- tandem.
def Together (var : String → String ↪ String) (good : α → β → Prop) :
    Outcome α → Outcome β → Prop
  | (.ok a, store), (.ok b, store') => good a b ∧ store.Tandem var store'
  | (.error e, store), (.error f, store') =>
    (∃ name, e.Alike (.renamed (var name)) f) ∧ store.Tandem var store'
  | _, _ => False

theorem Together.andThen {good : α → β → Prop} {good' : γ → δ → Prop} {o : Outcome α}
    {o' : Outcome β} {k : α → Store → Outcome γ} {k' : β → Store → Outcome δ}
    (h : Together var good o o')
    (hk : ∀ a store b store', good a b → store.Tandem var store' →
      Together var good' (k a store) (k' b store')) :
    Together var good' (o.andThen k) (o'.andThen k') := by
  rcases o with ⟨e | a, store⟩ <;> rcases o' with ⟨f | b, store'⟩
  · exact h
  · exact h.elim
  · exact h.elim
  · exact hk a store b store' h.1 h.2

theorem Together.error {good : α → β → Prop} (h : store.Tandem var store')
    (error : SpecializeError) :
    Together var good (.error error, store) (.error error, store') :=
  ⟨⟨"", .refl error⟩, h⟩

namespace Session

-- Work that ends alike on stores in tandem.
def InTandem (var : String → String ↪ String) (good : α → β → Prop) (work : Session α)
    (work' : Session β) : Prop :=
  ∀ ⦃store store' : Store⦄, store.Tandem var store' →
    Together var good (outcome work store) (outcome work' store')

-- What is asked of a session is answered alike by the other one.
abbrev ServesInTandem (var : String → String ↪ String)
    (specialize : Request → Session Specialization) : Prop :=
  ∀ request, InTandem var (Specialization.Respelled (var request.func)) (specialize request)
    (specialize request)

theorem ServesInTandem.joinResults {specialize : Request → Session Specialization}
    (h : ServesInTandem var specialize) (args : List Ty) : ∀ (members : List Closure) (joined : Ty),
      InTandem var Eq (Session.joinResults specialize args members joined)
        (Session.joinResults specialize args members joined)
  | [], _, _, _, htandem => ⟨rfl, htandem⟩
  | member :: rest, joined, store, store', htandem => by
      rw [outcome_joinResults_cons, outcome_joinResults_cons]
      apply (h _ htandem).andThen
      intro spec later spec' later' hspec hlater
      obtain ⟨naming, -, -, halike⟩ := hspec
      rw [← halike.returnType]
      cases joined.combine spec.returnType with
      | ok joined' => exact h.joinResults args rest joined' hlater
      | error error => exact .error hlater _

theorem ServesInTandem.invokeWith {specialize : Request → Session Specialization}
    (h : ServesInTandem var specialize) (callee : Ty) (args : List Ty) :
    InTandem var Eq (Session.invokeWith specialize callee args)
      (Session.invokeWith specialize callee args) := by
  intro store store' htandem
  rw [outcome_invokeWith, outcome_invokeWith, ← htandem.calls]
  cases store.callType? ⟨callee, args⟩ with
  | some ty => exact ⟨rfl, htandem.counters _ _⟩
  | none =>
      cases callee.members? with
      | none => exact .error htandem _
      | some members =>
          apply (h.joinResults args members .unknown htandem).andThen
          intro ty later ty' later' hty hlater
          subst hty
          exact ⟨rfl, hlater.remember _ ty⟩

-- Two runs through a function that has other names for its variables in the second.
def tandem (var : String → String ↪ String) (name source : String) : Comparison :=
  { Correspondence.renamed (var name) with
    agree := Store.Tandem var
    grows := fun _ _ => True
    within := fun _ => True
    asked := fun x y => y = var name x ∨ x = source ∧ y = source
    held := fun _ => Naming.drawn (var name) source
    leftFree := fun _ => False
    rightFree := fun _ => False
    errors := fun e f => ∃ other, e.Alike (.renamed (var other)) f }

section Serves

variable {limits : Limits} {depth : Nat} {waiting : List Request}

theorem ServesInTandem.answers
    (h : ServesInTandem var (specializeWithin (.ofLimits limits) depth waiting))
    (name source : String) (htandem : store.Tandem var store') (callee : Ty) (args : List Ty) :
    (tandem var name source).Answers store store'
      (outcome ((contextOf limits depth waiting).invoke callee args) store)
      (outcome ((contextOf limits depth waiting).invoke callee args) store') := by
  have hends := h.invokeWith callee args htandem
  have hgrows := grows_invokeWith (.ofLimits limits) depth waiting callee args store
  have hgrows' := grows_invokeWith (.ofLimits limits) depth waiting callee args store'
  unfold contextOf
  generalize outcome _ store = o at hends hgrows ⊢
  generalize outcome _ store' = o' at hends hgrows' ⊢
  rcases o with ⟨error | ty, later⟩ <;> rcases o' with ⟨error' | ty', later'⟩
  · exact Or.inr (Or.inr ⟨hends.2, hends.1⟩)
  · exact hends.elim
  · exact hends.elim
  · exact ⟨hends.1, hends.2, hgrows.fresh, hgrows'.fresh⟩

theorem ServesInTandem.respects
    (h : ServesInTandem var (specializeWithin (.ofLimits limits) depth waiting))
    (name source : String) :
    (tandem var name source).Respects (contextOf limits depth waiting)
      (contextOf limits depth waiting) where
  grows_refl _ := trivial
  grows_trans _ _ := trivial
  within_of_grows _ _ := trivial
  grows_fresh _ _ := trivial
  grows_invoke _ _ _ := trivial
  grows_lifted _ _ _ := trivial
  agree_fresh x y htandem := htandem.refresh x y
  asked_var _ := Or.inl rfl
  held_refresh := by
    intro store store' x y hasked htandem
    have hfresh : store.fresh = store'.fresh := htandem.fresh
    exact ⟨store.fresh.next, x, y, hasked, rfl, by rw [← hfresh]⟩
  held_grows _ h := h
  errors_of_alike herror := ⟨name, herror⟩
  registered func htandem _ := Or.inl (htandem.contains_eq func)
  invoke callee args htandem _ := h.answers name source htandem callee args
  lifted := by
    intro store store' op args htandem _
    rw [Comparison.outcome_lifted, Comparison.outcome_lifted]
    exact (h.answers name source (htandem.withWrapper op) _ args).of_withWrapper
  limit_lt h := (Nat.lt_irrefl _ h).elim
  limit_gt h := (Nat.lt_irrefl _ h).elim

theorem ServesInTandem.annotate
    (h : ServesInTandem var (specializeWithin (.ofLimits limits) depth waiting)) {name : String}
    {f f' : Func} (halike : f.Alike (Correspondence.renamed (var name)).naming Eq f')
    (args : List Ty) :
    InTandem var (Specialization.Respelled (var name))
      (f.annotate (contextOf limits depth waiting) args)
      (f'.annotate (contextOf limits depth waiting) args) := by
  intro store store' htandem
  have hasked : (tandem var name f.name).asked f.name f'.name := Or.inr ⟨rfl, halike.name.symm⟩
  have hends := (h.respects name f.name).annotate halike hasked args store store' htandem trivial
  rcases hgiven : outcome (f.annotate (contextOf limits depth waiting) args) store with
    ⟨error | spec, later⟩ <;>
    rcases hgiven' : outcome (f'.annotate (contextOf limits depth waiting) args) store' with
      ⟨error' | spec', later'⟩ <;>
    rw [hgiven, hgiven'] at hends
  · obtain hfree | hfree | ⟨hlater, herror⟩ := hends
    · exact hfree.elim
    · exact hfree.elim
    · exact ⟨herror, hlater⟩
  · exact hends.elim
  · exact hends.elim
  · have hsource : spec.source = f.name := by
      obtain ⟨locals, hyields⟩ := Annotate.yields_of_annotate hgiven
      obtain ⟨_, _, _, _, _, -, -, -, -, rfl⟩ := Annotate.yields_func hyields
      rfl
    obtain ⟨naming, hunique, hdrawn, hspec⟩ := hends.held
    exact ⟨⟨naming, hunique, hsource ▸ hdrawn, hspec⟩, hends.agree⟩

theorem ServesInTandem.build
    (h : ServesInTandem var (specializeWithin (.ofLimits limits) depth waiting)) {name : String}
    {f f' : Func} (halike : f.Alike (Correspondence.renamed (var name)).naming Eq f')
    (args : List Ty) :
    InTandem var (Specialization.Respelled (var name))
      (Session.build (.ofLimits limits)
        (Session.invokeWith (specializeWithin (.ofLimits limits) depth waiting)) f args)
      (Session.build (.ofLimits limits)
        (Session.invokeWith (specializeWithin (.ofLimits limits) depth waiting)) f' args) := by
  intro store store' htandem
  have hinferring : (inferring store).Tandem var (inferring store') := htandem.counters _ _
  rw [outcome_build_ofLimits, outcome_build_ofLimits]
  apply (h.annotate halike args hinferring).andThen
  intro spec later spec' later' hspec hlater
  exact ⟨hspec, hlater.counters _ _⟩

theorem inTandem_keep {request : Request} {spec spec' : Specialization}
    (hspec : spec.Respelled (var request.func) spec') :
    InTandem var (Specialization.Respelled (var request.func)) (keep request spec)
      (keep request spec') := by
  intro store store' htandem
  rw [outcome_keep, outcome_keep]
  obtain ⟨hnew, hnew'⟩ | ⟨known, known', hknown, hknown', hrespelled⟩ := htandem.built_both request
  · simp only [hnew, hnew']
    exact ⟨hspec, htandem.keep request hspec⟩
  · simp only [hknown, hknown']
    exact ⟨hrespelled, htandem⟩

-- By induction on how many more requests may wait. A request is in the caches of both
-- sessions or of none, it meets the same guards in both, and then both build what it
-- asks for.
theorem servesInTandem_specializeWithin (limits : Limits) : ∀ (depth : Nat)
    (waiting : List Request),
      ServesInTandem var (specializeWithin (.ofLimits limits) depth waiting)
  | depth, waiting, request, store, store', htandem => by
      obtain ⟨hnew, hnew'⟩ | ⟨spec, spec', hknown, hknown', hspec⟩ := htandem.built_both request
      · cases depth with
        | zero =>
            simp only [outcome_specializeWithin_zero, hnew, hnew']
            exact .error htandem _
        | succ depth =>
            simp only [outcome_specializeWithin_succ, hnew, hnew']
            by_cases hwaiting : request ∈ waiting
            · simp only [if_pos hwaiting]
              exact .error htandem _
            · simp only [if_neg hwaiting]
              have hfuncs := htandem.funcs request.func
              generalize store.funcs.find? request.func = found at hfuncs ⊢
              generalize store'.funcs.find? request.func = found' at hfuncs ⊢
              cases hfuncs with
              | none => exact .error htandem _
              | some halike =>
                  have hserves := servesInTandem_specializeWithin limits depth (request :: waiting)
                  apply (hserves.build halike request.args htandem).andThen
                  intro spec later spec' later' hspec hlater
                  exact inTandem_keep hspec hlater
      · rw [outcome_specializeWithin_cached hknown, outcome_specializeWithin_cached hknown']
        exact ⟨hspec, htandem.counters _ _⟩

theorem inTandem_specialize (limits : Limits) (name : String) (args : List Ty) :
    InTandem var (Specialization.Respelled (var name)) (specialize (.ofLimits limits) name args)
      (specialize (.ofLimits limits) name args) := by
  intro store store' htandem
  rw [outcome_specialize, outcome_specialize, ← htandem.contains_eq]
  split
  · exact servesInTandem_specializeWithin limits _ [] ⟨name, args⟩ htandem
  · exact .error htandem _

end Serves

end Session

end RankPoly
