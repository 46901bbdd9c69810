import RankPoly.Proofs.Session.Kept

namespace RankPoly

open Session

-- Every call that is remembered is answered by the specializations kept.
def Store.Coherent (store : Store) : Prop :=
  ∀ callee args ty, store.callType? ⟨callee, args⟩ = some ty →
    answer store.result? callee args = some ty

namespace Store.Coherent

theorem remember {store : Store} (h : store.Coherent) {callee : Ty} {args : List Ty} {ty : Ty}
    (hanswer : answer store.result? callee args = some ty) :
    Coherent { store with calls := (⟨callee, args⟩, ty) :: store.calls } := by
  intro callee' args' ty' hfound
  unfold callType? at hfound
  rw [List.find?_cons] at hfound
  split at hfound
  · rename_i heq
    cases of_decide_eq_true heq
    cases hfound
    exact hanswer
  · exact h _ _ _ hfound

theorem keep {store : Store} (h : store.Coherent) {request : Request} {spec : Specialization}
    (hnew : store.specialization? request = none) :
    Coherent { store with built := (request, spec) :: store.built } :=
  fun _ _ _ hfound => (Grows.keep hnew).answer (h _ _ _ hfound)

end Store.Coherent

namespace Session

theorem kept_trivial (settings : Settings) : Kept settings fun _ => True where
  counters _ _ := trivial
  fresh _ _ _ := trivial
  wrapper _ _ _ := trivial
  remember _ _ _ _ _ := trivial
  keep _ _ _ _ _ _ _ := trivial

theorem kept_coherent (settings : Settings) : Kept settings Store.Coherent where
  counters _ h := h
  fresh _ _ h := h
  wrapper _ h _ := h
  remember _ _ _ h hanswer := h.remember hanswer
  keep _ h _ hnew _ _ _ := h.keep hnew

theorem grows_specializeWithin (settings : Settings) (depth : Nat) (waiting : List Request)
    (request : Request) (store : Store) :
    store.Grows (outcome (specializeWithin settings depth waiting request) store).2 :=
  ((serves_specializeWithin (kept_trivial settings) depth waiting).leads request store).1

theorem grows_invokeWith (settings : Settings) (depth : Nat) (waiting : List Request)
    (callee : Ty) (args : List Ty) (store : Store) :
    store.Grows
      (outcome (invokeWith (specializeWithin settings depth waiting) callee args) store).2 :=
  ((serves_specializeWithin (kept_trivial settings) depth waiting).leads_invokeWith
    (kept_trivial settings) store callee args).1

-- The type of a call is what the specializations kept by then say it is, also
-- if it was only remembered.
theorem invokeWith_answer {P : Store → Prop} {specialize : Request → Session Specialization}
    (h : Serves P specialize) {store later : Store} (hstore : store.Coherent) {callee : Ty}
    {args : List Ty} {ty : Ty}
    (hinvoke : outcome (invokeWith specialize callee args) store = (.ok ty, later)) :
    answer later.result? callee args = some ty := by
  rw [outcome_invokeWith] at hinvoke
  cases hcall : store.callType? ⟨callee, args⟩ with
  | some known =>
      rw [hcall] at hinvoke
      cases hinvoke
      exact hstore _ _ _ hcall
  | none =>
      rw [hcall] at hinvoke
      cases hmembers : callee.members? with
      | none =>
          rw [hmembers] at hinvoke
          cases hinvoke
      | some members =>
          simp only [hmembers] at hinvoke
          rcases hjoin : outcome (joinResults specialize args members .unknown) store with
            ⟨error | joined, between⟩
          · rw [hjoin] at hinvoke
            cases hinvoke
          · rw [hjoin] at hinvoke
            cases hinvoke
            have hknown := h.joinResults_known args hjoin
            exact Option.bind_eq_some_iff.mpr ⟨members, hmembers, hknown⟩

end Session

end RankPoly
