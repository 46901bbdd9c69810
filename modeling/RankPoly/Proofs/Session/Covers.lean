import RankPoly.Proofs.Session.Reachable

namespace RankPoly

open Session

theorem SameDefs.symm {defs defs' : List Func} (h : SameDefs defs defs') : SameDefs defs' defs :=
  ⟨h.2, h.1⟩

theorem mem_of_specialization? {store : Store} {request : Request} {spec : Specialization}
    (h : store.specialization? request = some spec) : (request, spec) ∈ store.built := by
  obtain ⟨⟨found, kept⟩, hfind, rfl⟩ := Option.map_eq_some_iff.mp h
  have hfound : found = request := by simpa using List.find?_some hfind
  exact hfound ▸ List.mem_of_find?_eq_some hfind

-- A specialization is kept for the request.
def Store.Has (store : Store) (request : Request) : Prop :=
  ∃ spec, store.specialization? request = some spec

theorem Store.has_iff {store : Store} {request : Request} :
    store.Has request ↔ ∃ ty, store.result? request = some ty := by
  rw [result?_eq]
  constructor
  · rintro ⟨spec, hspec⟩
    exact ⟨spec.returnType, by rw [hspec]; rfl⟩
  · rintro ⟨ty, hty⟩
    obtain ⟨spec, hspec, -⟩ := Option.map_eq_some_iff.mp hty
    exact ⟨spec, hspec⟩

-- Two sessions with the same definitions where the second one knows all
-- functions, and has all specializations, that the first one does.
structure Covers (defs defs' : List Func) (store store' : Store) : Prop where
  left : Sound defs store
  right : Sound defs' store'
  defs : SameDefs defs defs'
  names : ∀ name, store.funcs.contains name = true → store'.funcs.contains name = true
  requests : ∀ request, store.Has request → store'.Has request

theorem Store.not_has_iff {store : Store} {request : Request} :
    ¬store.Has request ↔ store.specialization? request = none := by
  unfold Has
  cases store.specialization? request <;> simp

namespace Covers

variable {defs defs' : List Func} {store store' : Store}

theorem sameFuncs (h : Covers defs defs' store store') : SameFuncs store.funcs store'.funcs :=
  h.left.registry.sameFuncs h.right.registry h.defs

theorem result? (h : Covers defs defs' store store') {request : Request} {ty : Ty}
    (hty : store.result? request = some ty) : store'.result? request = some ty := by
  obtain ⟨ty', hty'⟩ := Store.has_iff.mp (h.requests request (Store.has_iff.mpr ⟨ty, hty⟩))
  rw [hty', h.left.grounded.results_agree h.sameFuncs h.right.grounded hty hty']

theorem counters (h : Covers defs defs' store store') (counters counters' : Counters) :
    Covers defs defs' { store with counters } { store' with counters := counters' } where
  left := ⟨h.left.registry, h.left.grounded, h.left.coherent⟩
  right := ⟨h.right.registry, h.right.grounded, h.right.coherent⟩
  defs := h.defs
  names := h.names
  requests := h.requests

theorem fresh (h : Covers defs defs' store store') (fresh fresh' : Fresh) :
    Covers defs defs' { store with fresh } { store' with fresh := fresh' } where
  left := ⟨h.left.registry, h.left.grounded, h.left.coherent⟩
  right := ⟨h.right.registry, h.right.grounded, h.right.coherent⟩
  defs := h.defs
  names := h.names
  requests := h.requests

theorem contains_withWrapper_iff {op : Prim} {store : Store} {name : String} :
    (withWrapper op store).funcs.contains name = true ↔
      name = wrapperName op ∨ store.funcs.contains name = true := by
  unfold withWrapper
  split
  · rename_i hname
    exact ⟨Or.inr, by rintro (rfl | h) <;> assumption⟩
  · simp only [NameMap.contains_iff, NameMap.find?_insert]
    by_cases h : wrapperName op = name
    · simp [h]
    · simp [h, Ne.symm h]

theorem has_withWrapper {op : Prim} {store : Store} {request : Request} :
    (withWrapper op store).Has request ↔ store.Has request := by
  simp [Store.Has, Store.specialization?]

theorem sound_withWrapper {store : Store} (h : Sound defs store) (op : Prim) :
    Sound defs (withWrapper op store) :=
  (Leads.withWrapper (kept_sound {} defs) store op).2 h

theorem withWrapper (h : Covers defs defs' store store') (op : Prim) :
    Covers defs defs' (withWrapper op store) (withWrapper op store') where
  left := sound_withWrapper h.left op
  right := sound_withWrapper h.right op
  defs := h.defs
  names name hname := by
    rw [contains_withWrapper_iff] at hname ⊢
    exact hname.imp_right (h.names name)
  requests request hrequest := by
    rw [has_withWrapper] at hrequest ⊢
    exact h.requests request hrequest

-- A wrapper that the second session knows may be added to the first.
theorem withWrapper_left (h : Covers defs defs' store store') {op : Prim}
    (hop : store'.funcs.contains (wrapperName op) = true) :
    Covers defs defs' (Session.withWrapper op store) store' := by
  have hcovers := h.withWrapper op
  rwa [withWrapper_of_contains hop] at hcovers

theorem remember_left (h : Covers defs defs' store store') {callee : Ty} {args : List Ty} {ty : Ty}
    (hanswer : answer store.result? callee args = some ty) :
    Covers defs defs' { store with calls := (⟨callee, args⟩, ty) :: store.calls } store' where
  left := (kept_sound {} defs).remember callee args ty h.left hanswer
  right := h.right
  defs := h.defs
  names := h.names
  requests := h.requests

theorem remember_right (h : Covers defs defs' store store') {callee : Ty} {args : List Ty} {ty : Ty}
    (hanswer : answer store'.result? callee args = some ty) :
    Covers defs defs' store { store' with calls := (⟨callee, args⟩, ty) :: store'.calls } where
  left := h.left
  right := (kept_sound {} defs').remember callee args ty h.right hanswer
  defs := h.defs
  names := h.names
  requests := h.requests

theorem has_keep {store : Store} {request other : Request} {spec : Specialization} :
    (outcome (keep request spec) store).2.Has other ↔ request = other ∨ store.Has other := by
  rw [outcome_keep]
  cases hrequest : store.specialization? request with
  | some known => exact ⟨Or.inr, by rintro (rfl | h); exacts [⟨known, hrequest⟩, h]⟩
  | none =>
      unfold Store.Has Store.specialization?
      by_cases heq : request = other
      · simp [heq]
      · simp [heq]

theorem funcs_keep {store : Store} {request : Request} {spec : Specialization} :
    (outcome (keep request spec) store).2.funcs = store.funcs := by
  rw [outcome_keep]
  split <;> rfl

theorem keep_left {request : Request} {spec : Specialization} (h : Covers defs defs' store store')
    (hsound : Sound defs (outcome (keep request spec) store).2) (hhas : store'.Has request) :
    Covers defs defs' (outcome (keep request spec) store).2 store' where
  left := hsound
  right := h.right
  defs := h.defs
  names name hname := h.names name (funcs_keep ▸ hname)
  requests other hother := by
    rcases has_keep.mp hother with rfl | hother
    · exact hhas
    · exact h.requests other hother

theorem keep_right {request : Request} {spec : Specialization} (h : Covers defs defs' store store')
    (hsound : Sound defs' (outcome (keep request spec) store').2) :
    Covers defs defs' store (outcome (keep request spec) store').2 where
  left := h.left
  right := hsound
  defs := h.defs
  names name hname := by
    rw [funcs_keep]
    exact h.names name hname
  requests other hother := has_keep.mpr (Or.inr (h.requests other hother))

end Covers

end RankPoly
