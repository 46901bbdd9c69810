import RankPoly.Demo
import RankPoly.Proofs.Session.Adds
import RankPoly.Proofs.Ty.Rank

namespace RankPoly

open Session
open Ty (AllParts)

namespace Ty

-- Something is known of a value, arrays have dimensions, and sets of closures have
-- members.
def Clean : Ty → Prop
  | .unknown => False
  | .array _ rank => 0 < rank
  | .closureSet members => members ≠ []
  | _ => True

instance : DecidablePred Clean
  | .unknown => inferInstanceAs (Decidable False)
  | .array _ rank => inferInstanceAs (Decidable (0 < rank))
  | .closureSet members => inferInstanceAs (Decidable (members ≠ []))
  | .scalar _ | .tuple _ | .struct _ | .closure _ | .slice .. | .none =>
    inferInstanceAs (Decidable True)

theorem stable_clean : Stable Clean where
  scalar _ := trivial
  array _ _ h := h
  tuple _ := trivial
  struct _ := trivial
  closure _ := trivial
  slice _ _ _ := trivial
  none := trivial
  empty h := (h rfl).elim
  singleton _ := List.cons_ne_nil _ _
  insert _ _ := ClosureSet.insert_ne_nil

-- The dimensions that an index takes off.
def dropped : Ty → Nat
  | .slice .. => 0
  | .tuple parts => (parts.filter isPosition).length
  | _ => 1

-- A type from whose rank no more is taken than there is, whatever it is indexed with and
-- however far it is lowered.
structure Exact (ty : Ty) : Prop where
  index : ∀ {selector slot}, ty.indexType selector = .ok slot →
    selector.dropped ≤ ty.rank ∧ slot.rank = ty.rank - selector.dropped + selector.rank
  lower : ∀ {count lowered}, ty.lowerRank count = .ok lowered → ty.isArray = true →
    count ≤ ty.rank ∧ lowered.rank = ty.rank - count

theorem Clean.exact {ty : Ty} (h : ty.Clean) : ty.Exact where
  index := by
    intro selector slot hindex
    unfold indexType at hindex
    split at hindex
    · rename_i elem rank
      have hrank : 0 < rank := h
      split at hindex
      · split at hindex <;> cases hindex
        exact ⟨hrank, rank_ofRank _ _⟩
      · cases hindex
        exact ⟨Nat.zero_le _, rfl⟩
      · rename_i parts
        split at hindex
        · rename_i hparts
          cases hindex
          exact ⟨(List.length_filter_le _ _).trans hparts.1, rank_ofRank _ _⟩
        · cases hindex
      · split at hindex <;> cases hindex
        exact ⟨hrank, rank_ofRank _ _⟩
      · cases hindex
    · cases hindex
  lower := by
    intro count lowered hlower harray
    unfold lowerRank at hlower
    split at hlower
    · rename_i hcount
      cases hlower
      exact ⟨hcount ▸ Nat.zero_le _, by simp [hcount]⟩
    · split at hlower
      · cases harray
      · split at hlower
        · rename_i hcount
          cases hlower
          exact ⟨hcount, rank_ofRank _ _⟩
        · cases hlower
      · cases hlower

end Ty

-- All types that are found in the annotations of which a later store has the results are
-- clean, also those in passes over a loop that do not settle it. Only what has one of these
-- types is indexed or lowered, so no rank falls below zero.
def Store.FindsClean (settings : Settings) (store later : Store) : Prop :=
  ∀ request spec, (request, spec) ∈ later.built → (request, spec) ∉ store.built →
    ∀ func binding, later.funcs.find? request.func = some func →
      func.params.bind request.args = .ok binding →
      ∀ ty, Annotate.Found settings binding.params ty → AllParts Ty.Clean ty ∧ ty.Exact

-- What a session gives for clean arguments is clean throughout, and so is all that is
-- added and found on the way, on behalf of it or of the calls in it.
theorem specialize_clean {limits : Limits} {defs : List Func} {store later : Store}
    (hstore : Reachable (.ofLimits limits) defs store) {name : String} {args : List Ty}
    {spec : Specialization} (hargs : ∀ arg ∈ args, AllParts Ty.Clean arg)
    (h : outcome (specialize (.ofLimits limits) name args) store = (.ok spec, later)) :
    spec.Made Ty.Clean ∧ store.Adds (.ofLimits limits) Ty.Clean later ∧
      store.FindsClean (.ofLimits limits) later := by
  obtain ⟨hmade, -, hfound, -⟩ := (upheld_made Ty.stable_clean).specialize hstore h
  have hadds : store.Adds (.ofLimits limits) Ty.Clean later := by
    rw [outcome_specialize] at h
    split at h
    · exact (serves_adding Ty.stable_clean limits limits.maxDepth [] _ _ _ _
        ⟨.reached hstore, .refl store⟩ hargs h).adds
    · cases h
  refine ⟨hmade _ _ (mem_of_specialization? hfound) hargs, hadds, ?_⟩
  intro request found hmem hnew func binding hfunc hbinding ty hty
  obtain ⟨hrequest, -⟩ := (hadds.built request found hmem).resolve_left hnew
  obtain ⟨hparams, -⟩ := Params.bind_parts Ty.stable_clean hrequest hbinding
  have hclean := hty.parts Ty.stable_clean (Settings.keeps_ofLimits limits Ty.Clean) hparams
  exact ⟨hclean, hclean.self.exact⟩

-- A row is taken out of a matrix and given to a closure that has captured a number.
theorem specialize_feed_clean :
    let add := Demo.binary "add" .add
    let feed := Demo.define "feed" ["f", "x"]
      [.ret (.invoke (.var "f") [.index (.var "x") (.const (.int 0))])]
    let store := [Operation.register add, .register feed].foldl (Operation.after (.ofLimits {})) {}
    let args := [Ty.closure ⟨"add", [.scalar .f64]⟩, .array .i64 2]
    ∃ spec later, outcome (specialize (.ofLimits {}) "feed" args) store = (.ok spec, later) ∧
      spec.Made Ty.Clean ∧ store.Adds (.ofLimits {}) Ty.Clean later ∧
      store.FindsClean (.ofLimits {}) later := by
  intro add feed store args
  obtain ⟨defs, hstore⟩ := Reachable.run [.register add, .register feed]
    (.start : Reachable (.ofLimits {}) [] {})
  obtain ⟨spec, later, h⟩ := Outcome.exists_ok
    (o := outcome (specialize (.ofLimits {}) "feed" args) store) (by decide +kernel)
  exact ⟨spec, later, h, specialize_clean hstore (by decide) h⟩

end RankPoly
