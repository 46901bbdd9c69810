import RankPoly.Proofs.Session.Coherent

namespace RankPoly.Session

variable (settings : Settings) (depth : Nat) (waiting : List Request)

-- Members that have all been specialized are joined without building any of them.
theorem joinResults_of_known (args : List Ty) : ∀ {members : List Closure} {joined ty : Ty}
    {store : Store}, joinKnown store.result? args members joined = some ty →
      ∃ counters, outcome (joinResults (specializeWithin settings depth waiting) args members joined)
        store = (.ok ty, { store with counters })
  | [], joined, ty, store, hjoin => by
      cases hjoin
      exact ⟨store.counters, rfl⟩
  | member :: rest, joined, ty, store, hjoin => by
      obtain ⟨result, hresult⟩ := joinKnown_known hjoin member List.mem_cons_self
      obtain ⟨spec, hspec, rfl⟩ :=
        Option.map_eq_some_iff.mp ((store.result?_eq _).symm.trans hresult)
      rw [outcome_joinResults_cons, outcome_specializeWithin_cached hspec, Outcome.andThen_ok]
      unfold joinKnown at hjoin
      simp only [hresult] at hjoin
      cases hcombine : joined.combine spec.returnType with
      | error error =>
          rw [hcombine] at hjoin
          cases hjoin
      | ok joined' =>
          rw [hcombine] at hjoin
          have hjoin : joinKnown (hitCache store).result? args rest joined' = some ty := hjoin
          exact joinResults_of_known args hjoin

-- A call that what is kept has an answer to gets that answer, whether it is
-- remembered or not, and whoever waits for it.
theorem invokeWith_of_answer {store : Store} (hstore : store.Coherent) {callee : Ty} {args : List Ty}
    {ty : Ty} (h : answer store.result? callee args = some ty) :
    ∃ later, outcome (invokeWith (specializeWithin settings depth waiting) callee args) store =
      (.ok ty, later) := by
  rw [outcome_invokeWith]
  cases hcall : store.callType? ⟨callee, args⟩ with
  | some known =>
      have hknown := hstore callee args known hcall
      cases hknown.symm.trans h
      exact ⟨_, rfl⟩
  | none =>
      obtain ⟨members, hmembers, hjoin⟩ := Option.bind_eq_some_iff.mp h
      obtain ⟨counters, houtcome⟩ := joinResults_of_known settings depth waiting args hjoin
      simp only [hmembers, houtcome]
      exact ⟨_, rfl⟩

section Again

variable {settings : Settings} {store later last : Store}

theorem register_known {func known : Func} (h : outcome (register func) store = (.ok known, later)) :
    later.funcs.find? func.name = some known ∧ known.same func = true := by
  rw [outcome_register] at h
  split at h
  · rename_i found hfound
    split at h
    · cases h
      exact ⟨hfound, ‹_›⟩
    · cases h
  · cases h
    exact ⟨NameMap.find?_insert_self _ _ _, func.same_self⟩

theorem outcome_register_known {func known : Func} (hfound : store.funcs.find? func.name = some known)
    (hsame : known.same func = true) : outcome (register func) store = (.ok known, store) := by
  have hfound : NameMap.find? func.name store.funcs = some known := hfound
  simp only [outcome_register, hfound, if_pos hsame]

-- A definition that has been accepted is accepted again, and nothing is added by it.
theorem register_again {func known : Func} (h : outcome (register func) store = (.ok known, later))
    (hgrows : later.Grows last) : outcome (register func) last = (.ok known, last) :=
  outcome_register_known (hgrows.funcs (register_known h).1) (register_known h).2

-- What has been specialized is found in the cache when it is asked for again.
theorem specialize_again {name : String} {args : List Ty} {spec : Specialization}
    (h : outcome (specialize settings name args) store = (.ok spec, later)) :
    outcome (specialize settings name args) later = (.ok spec, hitCache later) := by
  rw [outcome_specialize] at h ⊢
  split at h
  · rename_i hname
    have hgrows := grows_specializeWithin settings settings.limits.maxDepth [] ⟨name, args⟩ store
    rw [h] at hgrows
    rw [if_pos (hgrows.contains hname), outcome_specializeWithin_cached (specializeWithin_found h)]
  · cases h

-- A call that has been made is remembered when it is made again.
theorem invokeWith_again {specialize : Request → Session Specialization} {callee : Ty}
    {args : List Ty} {ty : Ty}
    (h : outcome (invokeWith specialize callee args) store = (.ok ty, later)) :
    later.callType? ⟨callee, args⟩ = some ty ∧
      outcome (invokeWith specialize callee args) later = (.ok ty, hitMemo later) := by
  have hfound : later.callType? ⟨callee, args⟩ = some ty := by
    rw [outcome_invokeWith] at h
    split at h
    · rename_i known hknown
      cases h
      exact hknown
    · split at h
      · cases h
      · rename_i members _
        rcases hjoin : outcome (joinResults specialize args members .unknown) store with
          ⟨error | joined, between⟩ <;> rw [hjoin] at h <;> cases h
        simp [Store.callType?]
  refine ⟨hfound, ?_⟩
  rw [outcome_invokeWith, hfound]

end Again

end RankPoly.Session
