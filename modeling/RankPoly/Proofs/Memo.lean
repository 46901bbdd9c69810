import RankPoly.Demo
import RankPoly.Proofs.Session.Reachable

namespace RankPoly

open Session

theorem lasting_coherent (settings : Settings) :
    Lasting settings fun _ store => store.Coherent where
  start := fun _ _ _ h => nomatch h
  kept _ := kept_coherent settings
  register := by
    intro defs store func known later h hregister
    rcases register_ok hregister with rfl | ⟨-, rfl⟩
    · exact h
    · exact h

-- Results that are joined are those of specializations that are kept.
theorem joinKnown_specs {store : Store} {args : List Ty} :
    ∀ {members : List Closure} {joined ty : Ty},
      joinKnown store.result? args members joined = some ty →
      ∃ specs, List.Forall₂
          (fun member spec =>
            store.specialization? ⟨member.func, member.captured ++ args⟩ = some spec)
          members specs ∧
        (specs.map (·.returnType)).foldlM Ty.combine joined = .ok ty
  | [], joined, ty, h => by
      cases h
      exact ⟨[], .nil, rfl⟩
  | member :: rest, joined, ty, h => by
      unfold joinKnown at h
      rw [Store.result?_eq] at h
      cases hspec : store.specialization? ⟨member.func, member.captured ++ args⟩ with
      | none =>
          rw [hspec] at h
          cases h
      | some spec =>
          simp only [hspec, Option.map_some] at h
          cases hcombine : joined.combine spec.returnType with
          | error error =>
              rw [hcombine] at h
              cases h
          | ok joined' =>
              simp only [hcombine] at h
              obtain ⟨specs, hspecs, hfold⟩ := joinKnown_specs h
              refine ⟨spec :: specs, .cons hspec hspecs, ?_⟩
              rw [List.map_cons, List.foldlM_cons, hcombine]
              exact hfold

-- A call that is remembered, in whatever session and with whatever passes, is one
-- of closures. All of them are specialized for it, and its type is what their
-- results, as the passes left them, join to in order.
theorem remembered_joins {settings : Settings} {defs : List Func} {store : Store}
    (hstore : Reachable settings defs store) {callee : Ty} {args : List Ty} {ty : Ty}
    (h : store.callType? ⟨callee, args⟩ = some ty) :
    callee.isCallable = true ∧ ∃ members specs, callee.members? = some members ∧
      List.Forall₂
        (fun member spec =>
          store.specialization? ⟨member.func, member.captured ++ args⟩ = some spec)
        members specs ∧
      Ty.combineAll (specs.map (·.returnType)) = .ok ty := by
  have hanswer := (lasting_coherent settings).of_reachable hstore _ _ _ h
  obtain ⟨members, hmembers, hjoin⟩ := Option.bind_eq_some_iff.mp hanswer
  obtain ⟨specs, hspecs, hfold⟩ := joinKnown_specs hjoin
  refine ⟨?_, members, specs, hmembers, hspecs, hfold⟩
  cases callee with
  | closure | closureSet => rfl
  | _ => cases hmembers

-- The request is refused, as nothing is known of `z`. By then the call has been
-- made, and the optimizer has let both functions return another type.
theorem remembered_in_refused :
    let settings : Settings := { optimizer := .returning (.scalar .f32) }
    let negate := Demo.define "negate" ["x"] [.ret (.prim .neg [.var "x"])]
    let shrink := Demo.define "shrink" ["x"] [.ret (.prim .abs [.var "x"])]
    let broken := Demo.define "broken" ["f"]
      [.assign (.var "y") (.invoke (.var "f") [.const (.int 1)]), .ret (.var "z")]
    let callee := Ty.closureSet [⟨"negate", []⟩, ⟨"shrink", []⟩]
    let ops : List Operation := [.register negate, .register shrink, .register broken,
      .specialize "broken" [callee]]
    let store := ops.foldl (Operation.after settings) {}
    store.specialization? ⟨"broken", [callee]⟩ = none ∧
      ∃ members specs, callee.members? = some members ∧
        List.Forall₂
          (fun member spec =>
            store.specialization? ⟨member.func, member.captured ++ [.scalar .i64]⟩ = some spec)
          members specs ∧
        Ty.combineAll (specs.map (·.returnType)) = .ok (.scalar .f32) := by
  intro settings negate shrink broken callee ops store
  obtain ⟨defs, hstore⟩ := Reachable.run ops (.start : Reachable settings [] {})
  have hcall : store.callType? ⟨callee, [.scalar .i64]⟩ = some (.scalar .f32) := by decide +kernel
  have hnone : (store.specialization? ⟨"broken", [callee]⟩).isNone = true := by decide +kernel
  exact ⟨by simpa using hnone, (remembered_joins hstore hcall).2⟩

end RankPoly
