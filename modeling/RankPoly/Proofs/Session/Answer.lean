import RankPoly.Proofs.NameMap
import RankPoly.Proofs.Ty.Join
import RankPoly.Session.Specialize

namespace RankPoly

-- The results of closures joined in their order, if all of them are known.
def joinKnown (known : Request → Option Ty) (args : List Ty) : List Closure → Ty → Option Ty
  | [], joined => some joined
  | member :: rest, joined =>
    match known ⟨member.func, member.captured ++ args⟩ with
    | none => none
    | some ty =>
      match joined.combine ty with
      | .ok joined => joinKnown known args rest joined
      | .error _ => none

-- The type of a call as far as the results it needs are known.
def answer (known : Request → Option Ty) (callee : Ty) (args : List Ty) : Option Ty :=
  callee.members?.bind fun members => joinKnown known args members .unknown

-- The result that is kept for a request.
def resultIn (built : List (Request × Specialization)) (request : Request) : Option Ty :=
  (built.find? fun entry => entry.1 = request).map fun entry => entry.2.returnType

section Answer

variable {known known' : Request → Option Ty} {args : List Ty}

theorem joinKnown_mono (h : ∀ {request ty}, known request = some ty → known' request = some ty) :
    ∀ {members : List Closure} {joined ty : Ty}, joinKnown known args members joined = some ty →
      joinKnown known' args members joined = some ty
  | [], _, _, hjoin => hjoin
  | member :: rest, joined, ty, hjoin => by
      unfold joinKnown at hjoin ⊢
      split at hjoin
      · cases hjoin
      · rename_i found hfound
        rw [h hfound]
        dsimp only
        split at hjoin
        · exact joinKnown_mono h hjoin
        · cases hjoin

theorem joinKnown_known : ∀ {members : List Closure} {joined ty : Ty},
    joinKnown known args members joined = some ty →
      ∀ member ∈ members, ∃ result, known ⟨member.func, member.captured ++ args⟩ = some result
  | [], _, _, _, _, hmem => by cases hmem
  | member :: rest, joined, ty, hjoin, other, hmem => by
      unfold joinKnown at hjoin
      split at hjoin
      · cases hjoin
      · rename_i found hfound
        split at hjoin
        · rcases List.mem_cons.mp hmem with rfl | hmem
          · exact ⟨found, hfound⟩
          · exact joinKnown_known hjoin other hmem
        · cases hjoin

theorem joinKnown_agree
    (h : ∀ {request ty ty'}, known request = some ty → known' request = some ty' → ty = ty') :
    ∀ {members : List Closure} {joined ty ty' : Ty},
      joinKnown known args members joined = some ty →
      joinKnown known' args members joined = some ty' → ty = ty'
  | [], _, _, _, hjoin, hjoin' => Option.some.inj (hjoin.symm.trans hjoin')
  | member :: rest, joined, ty, ty', hjoin, hjoin' => by
      unfold joinKnown at hjoin hjoin'
      split at hjoin
      · cases hjoin
      · rename_i found hfound
        split at hjoin'
        · cases hjoin'
        · rename_i found' hfound'
          cases h hfound hfound'
          split at hjoin
          · rename_i joined' hcombine
            rw [hcombine] at hjoin'
            exact joinKnown_agree h hjoin hjoin'
          · cases hjoin

variable {callee : Ty}

theorem answer_mono {ty : Ty} (h : ∀ {request ty}, known request = some ty → known' request = some ty)
    (hanswer : answer known callee args = some ty) : answer known' callee args = some ty := by
  obtain ⟨members, hmembers, hjoin⟩ := Option.bind_eq_some_iff.mp hanswer
  exact Option.bind_eq_some_iff.mpr ⟨members, hmembers, joinKnown_mono h hjoin⟩

theorem answer_agree {ty ty' : Ty}
    (h : ∀ {request ty ty'}, known request = some ty → known' request = some ty' → ty = ty')
    (hanswer : answer known callee args = some ty)
    (hanswer' : answer known' callee args = some ty') : ty = ty' := by
  obtain ⟨members, hmembers, hjoin⟩ := Option.bind_eq_some_iff.mp hanswer
  obtain ⟨members', hmembers', hjoin'⟩ := Option.bind_eq_some_iff.mp hanswer'
  cases hmembers.symm.trans hmembers'
  exact joinKnown_agree h hjoin hjoin'

-- A call of one closure that has bound nothing is answered by its function.
theorem answer_closure {func : String} {ty : Ty}
    (hanswer : answer known (.closure ⟨func, []⟩) args = some ty) :
    known ⟨func, args⟩ = some ty := by
  change joinKnown known args [⟨func, []⟩] .unknown = some ty at hanswer
  unfold joinKnown at hanswer
  cases hfound : known ⟨func, args⟩ with
  | none =>
      simp [hfound] at hanswer
  | some found =>
      simpa [hfound, Ty.combine_unknown_left, joinKnown] using hanswer

-- All that an answer rests on is known.
theorem answer_known {ty : Ty} (hanswer : answer known callee args = some ty) :
    ∃ members, callee.members? = some members ∧
      ∀ member ∈ members, ∃ result, known ⟨member.func, member.captured ++ args⟩ = some result := by
  obtain ⟨members, hmembers, hjoin⟩ := Option.bind_eq_some_iff.mp hanswer
  exact ⟨members, hmembers, joinKnown_known hjoin⟩

end Answer

namespace Store

def result? (store : Store) (request : Request) : Option Ty :=
  resultIn store.built request

theorem result?_eq (store : Store) (request : Request) :
    store.result? request = (store.specialization? request).map (·.returnType) := by
  unfold result? resultIn specialization?
  rw [Option.map_map]
  rfl

-- What is known stays known.
structure Grows (store later : Store) : Prop where
  funcs : ∀ {name func}, store.funcs.find? name = some func →
    later.funcs.find? name = some func
  built : ∀ {request spec}, store.specialization? request = some spec →
    later.specialization? request = some spec
  fresh : store.fresh.next ≤ later.fresh.next

namespace Grows

variable {store between later : Store}

theorem refl (store : Store) : store.Grows store :=
  ⟨id, id, Nat.le_refl _⟩

theorem trans (h : store.Grows between) (h' : between.Grows later) : store.Grows later :=
  ⟨h'.funcs ∘ h.funcs, h'.built ∘ h.built, Nat.le_trans h.fresh h'.fresh⟩

theorem result? (h : store.Grows later) {request : Request} {ty : Ty}
    (hfound : store.result? request = some ty) : later.result? request = some ty := by
  rw [result?_eq] at *
  obtain ⟨spec, hspec, rfl⟩ := Option.map_eq_some_iff.mp hfound
  rw [h.built hspec]
  rfl

theorem answer (h : store.Grows later) {callee : Ty} {args : List Ty} {ty : Ty}
    (hanswer : answer store.result? callee args = some ty) :
    RankPoly.answer later.result? callee args = some ty :=
  answer_mono h.result? hanswer

theorem contains (h : store.Grows later) {name : String}
    (hname : store.funcs.contains name = true) : later.funcs.contains name = true := by
  obtain ⟨func, hfunc⟩ := Option.isSome_iff_exists.mp hname
  exact Option.isSome_iff_exists.mpr ⟨func, h.funcs hfunc⟩

theorem insert {name : String} {func : Func} (hname : store.funcs.find? name = none) :
    store.Grows { store with funcs := store.funcs.insert name func } where
  funcs := NameMap.find?_insert_of_free hname
  built := id
  fresh := Nat.le_refl _

theorem keep {request : Request} {spec : Specialization}
    (hrequest : store.specialization? request = none) :
    store.Grows { store with built := (request, spec) :: store.built } where
  funcs := id
  built := by
    intro other known hknown
    have hne : request ≠ other := by
      rintro rfl
      simp [hrequest] at hknown
    unfold specialization? at *
    rw [List.find?_cons_of_neg (by simpa using hne)]
    exact hknown
  fresh := Nat.le_refl _

end Grows

end Store

end RankPoly
