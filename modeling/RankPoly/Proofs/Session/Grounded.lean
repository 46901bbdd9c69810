import RankPoly.Proofs.Session.Kept

namespace RankPoly

open Session

-- Calls that are answered by what is kept, and by nothing else.
def replaying (built : List (Request × Specialization)) (callee : Ty) (args : List Ty) :
    Session Ty :=
  match answer (resultIn built) callee args with
  | some ty => return ty
  | none => throw (.unresolvable callee)

theorem outcome_replaying (built : List (Request × Specialization)) (callee : Ty)
    (args : List Ty) (store : Store) :
    outcome (replaying built callee args) store =
      match answer (resultIn built) callee args with
      | some ty => (.ok ty, store)
      | none => (.error (.unresolvable callee), store) := by
  unfold replaying
  cases answer (resultIn built) callee args <;> rfl

-- A specialization that the function gives again when all its calls are
-- answered by the older specializations, from whatever store and up to names.
def Replayed (funcs : NameMap Func) (built : List (Request × Specialization))
    (request : Request) (spec : Specialization) : Prop :=
  ∃ func limit store again later, funcs.find? request.func = some func ∧
    outcome (func.annotate { loopLimit := limit, invoke := replaying built } request.args) store =
      (.ok again, later) ∧
    spec.Renamed again

-- Specializations, newest first, each of which rests on older ones.
inductive Grounded (funcs : NameMap Func) : List (Request × Specialization) → Prop where
  | nil : Grounded funcs []
  | cons {request spec built} : Grounded funcs built → Replayed funcs built request spec →
      Grounded funcs ((request, spec) :: built)

theorem Grounded.mono {funcs funcs' : NameMap Func} {built : List (Request × Specialization)}
    (h : Grounded funcs built)
    (hfuncs : ∀ {name func}, funcs.find? name = some func → funcs'.find? name = some func) :
    Grounded funcs' built := by
  induction h with
  | nil => exact .nil
  | cons _ hreplayed ih =>
      obtain ⟨func, limit, store, again, later, hfunc, hrest⟩ := hreplayed
      exact .cons ih ⟨func, limit, store, again, later, hfuncs hfunc, hrest⟩

-- What an entry rests on stands behind it.
theorem Grounded.replayed {funcs : NameMap Func} {built : List (Request × Specialization)}
    (h : Grounded funcs built) {request : Request} {spec : Specialization}
    (hmem : (request, spec) ∈ built) :
    ∃ older, Grounded funcs older ∧ older ⊆ built ∧ Replayed funcs older request spec := by
  induction h with
  | nil => cases hmem
  | @cons request' spec' built hgrounded hreplayed ih =>
      rcases List.mem_cons.mp hmem with heq | hmem
      · cases heq
        exact ⟨built, hgrounded, List.subset_cons_self _ _, hreplayed⟩
      · obtain ⟨older, holder, hsubset, hrest⟩ := ih hmem
        exact ⟨older, holder, List.subset_cons_of_subset _ hsubset, hrest⟩

theorem mem_of_resultIn {built : List (Request × Specialization)} {request : Request} {ty : Ty}
    (h : resultIn built request = some ty) :
    ∃ spec, (request, spec) ∈ built ∧ spec.returnType = ty := by
  obtain ⟨⟨found, spec⟩, hfind, rfl⟩ := Option.map_eq_some_iff.mp h
  have hfound : found = request := by simpa using List.find?_some hfind
  exact ⟨spec, hfound ▸ List.mem_of_find?_eq_some hfind, rfl⟩

theorem Specialization.Renamed.returnType_eq {x y : Specialization} (h : x.Renamed y) :
    x.returnType = y.returnType := by
  obtain ⟨naming, -, -, halike⟩ := h
  exact halike.returnType

theorem Specialization.Renamed.inputs_eq {x y : Specialization} (h : x.Renamed y) :
    x.inputs = y.inputs := by
  obtain ⟨naming, -, -, halike⟩ := h
  exact halike.inputs

-- Functions that both sides know are the same.
def SameFuncs (funcs funcs' : NameMap Func) : Prop :=
  ∀ {name func func'}, funcs.find? name = some func → funcs'.find? name = some func' →
    func.Same func'

section Replays

variable {built built' : List (Request × Specialization)}

-- Two replays, each of which may stop at any call.
def replays : Comparison :=
  .agreeing (fun _ _ => True) (fun _ => True) fun _ => True

theorem replays_answers
    (hresults : ∀ {request ty ty'}, resultIn built request = some ty →
      resultIn built' request = some ty' → ty = ty')
    (callee : Ty) (args : List Ty) (store store' : Store) :
    replays.Answers store store' (outcome (replaying built callee args) store)
      (outcome (replaying built' callee args) store') := by
  rw [outcome_replaying, outcome_replaying]
  cases hanswer : answer (resultIn built) callee args <;>
    cases hanswer' : answer (resultIn built') callee args
  · exact Or.inl trivial
  · trivial
  · trivial
  · exact ⟨answer_agree hresults hanswer hanswer', trivial, le_rfl, le_rfl⟩

theorem replays_agree
    (hresults : ∀ {request ty ty'}, resultIn built request = some ty →
      resultIn built' request = some ty' → ty = ty')
    (limit limit' : Nat) :
    Comparison.Agrees (fun _ _ => True) (fun _ => True) (fun _ => True)
      { loopLimit := limit, invoke := replaying built }
      { loopLimit := limit', invoke := replaying built' } where
  fresh _ _ _ := trivial
  registered _ _ := by
    refine Or.inr ?_
    split <;> trivial
  invoke callee args _ := replays_answers hresults callee args _ _
  lifted op args _ := by
    rw [Comparison.outcome_lifted, Comparison.outcome_lifted]
    exact (replays_answers hresults _ args _ _).of_withWrapper
  limit_lt _ _ := trivial
  limit_gt := fun _ _ _ _ => trivial

-- Two replays of one function that give the calls they share the same types
-- can only differ in names.
theorem Func.Same.replays {func func' : Func} (hsame : func.Same func')
    (hresults : ∀ {request ty ty'}, resultIn built request = some ty →
      resultIn built' request = some ty' → ty = ty')
    {limit limit' : Nat} {args : List Ty} {store store' later later' : Store}
    {spec spec' : Specialization}
    (h : outcome (func.annotate { loopLimit := limit, invoke := replaying built } args) store =
      (.ok spec, later))
    (h' : outcome (func'.annotate { loopLimit := limit', invoke := replaying built' } args) store' =
      (.ok spec', later')) : spec.Renamed spec' := by
  have hends := (replays_agree hresults limit limit').respects.annotate hsame trivial args store
    store' trivial trivial
  rw [h, h'] at hends
  exact hends.alike

end Replays

-- Specializations for the same request can only differ in names, however many
-- others they were built among.
theorem Grounded.renamed {funcs funcs' : NameMap Func} (hsame : SameFuncs funcs funcs')
    {built : List (Request × Specialization)} (h : Grounded funcs built) :
    ∀ {built' : List (Request × Specialization)}, Grounded funcs' built' →
      ∀ {request : Request} {spec spec' : Specialization}, (request, spec) ∈ built →
        (request, spec') ∈ built' → spec.Renamed spec' := by
  induction h with
  | nil => exact fun _ _ _ _ hmem => nomatch hmem
  | @cons newest newestSpec built _ hreplayed ih =>
      intro built' h' request spec spec' hmem hmem'
      rcases List.mem_cons.mp hmem with heq | hmem
      · cases heq
        obtain ⟨older, holder, -, hreplayed'⟩ := h'.replayed hmem'
        obtain ⟨func, limit, store, again, later, hfunc, hagain, hrenamed⟩ := hreplayed
        obtain ⟨func', limit', store', again', later', hfunc', hagain', hrenamed'⟩ := hreplayed'
        have hresults : ∀ {request ty ty'}, resultIn built request = some ty →
            resultIn older request = some ty' → ty = ty' := by
          intro request ty ty' hty hty'
          obtain ⟨spec, hspec, rfl⟩ := mem_of_resultIn hty
          obtain ⟨spec', hspec', rfl⟩ := mem_of_resultIn hty'
          exact (ih holder hspec hspec').returnType_eq
        have hreplays := (hsame hfunc hfunc').replays hresults hagain hagain'
        exact hrenamed.euclid (hrenamed'.euclid hreplays)
      · exact ih h' hmem hmem'

-- Results for the same request are equal.
theorem Grounded.results_agree {funcs funcs' : NameMap Func} (hsame : SameFuncs funcs funcs')
    {built built' : List (Request × Specialization)} (h : Grounded funcs built)
    (h' : Grounded funcs' built') {request : Request} {ty ty' : Ty}
    (hty : resultIn built request = some ty) (hty' : resultIn built' request = some ty') :
    ty = ty' := by
  obtain ⟨spec, hspec, rfl⟩ := mem_of_resultIn hty
  obtain ⟨spec', hspec', rfl⟩ := mem_of_resultIn hty'
  exact (h.renamed hsame h' hspec hspec').returnType_eq

end RankPoly
