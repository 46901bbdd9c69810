import RankPoly.Proofs.Session.Answer
import RankPoly.Proofs.Ty.Symmetry

namespace RankPoly

open Ty (AllParts Stable)

-- Specializations for arguments that have a property return what has it.
def Store.Answers (p : Ty → Prop) (store : Store) : Prop :=
  ∀ {request ty}, (∀ arg ∈ request.args, AllParts p arg) → store.result? request = some ty →
    AllParts p ty

-- What a property of types is asked of: all parts of the type of each node, and
-- the types of variables, which may be unknown as long as they are not read.
structure Regime (p bound : Ty → Prop) : Prop where
  stable : Stable p
  known : ∀ {ty}, bound ty → ty ≠ .unknown → AllParts p ty
  of_parts : ∀ {ty}, AllParts p ty → bound ty

-- With nothing but such types around, all variables may have any of them.
theorem Ty.Stable.regime {p : Ty → Prop} (hp : Stable p) : Regime p (AllParts p) :=
  ⟨hp, fun h _ => h, id⟩

namespace Regime

variable {p bound : Ty → Prop}

theorem combine_left (hp : Regime p bound) {a b c : Ty} (h : a.combine b = .ok c) (ha : bound a)
    (hb : AllParts p b) : AllParts p c := by
  by_cases hunknown : a = .unknown
  · rw [hunknown, Ty.combine_unknown_left] at h
    cases h
    exact hb
  · exact hp.stable.combine h (hp.known ha hunknown) hb

theorem combine (hp : Regime p bound) {a b c : Ty} (h : a.combine b = .ok c) (ha : bound a)
    (hb : bound b) : bound c := by
  by_cases hunknown : b = .unknown
  · rw [hunknown] at h
    exact Ty.combine_unknown_right h ▸ ha
  · exact hp.of_parts (hp.combine_left h ha (hp.known hb hunknown))

end Regime

namespace Ty.Stable

variable {p : Ty → Prop} {known : Request → Option Ty} {args : List Ty}

theorem const (hp : Stable p) : ∀ value : Const, AllParts p value.ty
  | .bool _ | .int _ | .float _ => allParts_scalar.mpr (hp.scalar _)
  | .none => allParts_none.mpr hp.none

theorem joinKnown (hp : Stable p)
    (hknown : ∀ {request ty}, (∀ arg ∈ request.args, AllParts p arg) → known request = some ty →
      AllParts p ty) (hargs : ∀ arg ∈ args, AllParts p arg) :
    ∀ {members : List Closure} {joined ty : Ty}, AllParts p joined →
      (∀ member ∈ members, ∀ ty ∈ member.captured, AllParts p ty) →
      RankPoly.joinKnown known args members joined = some ty → AllParts p ty
  | [], joined, ty, hjoined, _, h => by
      cases h
      exact hjoined
  | member :: rest, joined, ty, hjoined, hmembers, h => by
      obtain ⟨hmember, hrest⟩ := List.forall_mem_cons.mp hmembers
      unfold RankPoly.joinKnown at h
      split at h
      · cases h
      · rename_i found hfound
        have hfound : AllParts p found := by
          refine hknown (fun arg harg => ?_) hfound
          rcases List.mem_append.mp harg with harg | harg
          · exact hmember arg harg
          · exact hargs arg harg
        split at h
        · rename_i joined' hcombine
          exact hp.joinKnown hknown hargs (hp.combine hcombine hjoined hfound) hrest h
        · cases h

-- A call is answered with the property if all that goes into it has it. A set
-- of closures has members, or unknown types have the property.
theorem answer (hp : Stable p)
    (hknown : ∀ {request ty}, (∀ arg ∈ request.args, AllParts p arg) → known request = some ty →
      AllParts p ty) (hargs : ∀ arg ∈ args, AllParts p arg) {callee ty : Ty}
    (hcallee : AllParts p callee) (h : RankPoly.answer known callee args = some ty) :
    AllParts p ty := by
  obtain ⟨members, hmembers, hjoin⟩ := Option.bind_eq_some_iff.mp h
  have hcaptured := hcallee.captured hmembers
  cases members with
  | nil =>
      cases hjoin
      cases callee with
      | closureSet members =>
          cases hmembers
          exact allParts_unknown.mpr (hp.empty hcallee.self)
      | _ => cases hmembers
  | cons member rest =>
      -- The first result is what it was joined with what is unknown.
      obtain ⟨hmember, hrest⟩ := List.forall_mem_cons.mp hcaptured
      unfold RankPoly.joinKnown at hjoin
      split at hjoin
      · cases hjoin
      · rename_i found hfound
        rw [combine_unknown_left] at hjoin
        refine hp.joinKnown hknown hargs (hknown (fun arg harg => ?_) hfound) hrest hjoin
        rcases List.mem_append.mp harg with harg | harg
        · exact hmember arg harg
        · exact hargs arg harg

end Ty.Stable

end RankPoly
