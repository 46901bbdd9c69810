import RankPoly.Demo
import RankPoly.Proofs.Session.Elaborated

namespace RankPoly

open Session

-- All nodes of what a session gives have the types that their parts give them,
-- where the types of calls are the results of the specializations that the
-- session keeps. An operator that has become a map has the operator's type, if
-- what is known under its wrapper's name is the wrapper. Otherwise it has the
-- type that the function under that name gives it.
theorem specialize_typed {limits : Limits} {defs : List Func} {store later : Store}
    (hstore : Reachable (.ofLimits limits) defs store) {name : String} {args : List Ty}
    {spec : Specialization}
    (h : outcome (specialize (.ofLimits limits) name args) store = (.ok spec, later)) :
    ∃ func names, store.funcs.find? name = some func ∧
      func.Elaborates (NodeTyped later) names spec :=
  hstore.elaborated h

theorem specialize_add_typed :
    let store := Operation.after (.ofLimits {}) {} (.register (Demo.binary "add" .add))
    ∃ spec later func names,
      outcome (specialize (.ofLimits {}) "add" [.array .f64 2, .array .i32 1]) store =
        (.ok spec, later) ∧
      store.funcs.find? "add" = some func ∧ func.Elaborates (NodeTyped later) names spec := by
  intro store
  have hstore : Reachable (.ofLimits {}) [Demo.binary "add" .add] store :=
    .step (.register (Demo.binary "add" .add)) .start
  obtain ⟨spec, later, h⟩ := Outcome.exists_ok
    (o := outcome (specialize (.ofLimits {}) "add" [.array .f64 2, .array .i32 1]) store)
    (by decide +kernel)
  obtain ⟨func, names, hfunc, hbody⟩ := specialize_typed hstore h
  exact ⟨spec, later, func, names, h, hfunc, hbody⟩

-- Another function under the name of a wrapper is taken for the wrapper: the sum
-- of two arrays of integers is typed as an array of truth values.
theorem shadowed_add_mistyped :
    let shadow := Demo.define "prim_add" ["x0", "x1"] [.ret (.const (.bool true))]
    let double := Demo.define "double" ["x"] [.ret (.prim .add [.var "x", .var "x"])]
    let store := [.register shadow, .register double].foldl (Operation.after (.ofLimits {})) {}
    ∃ spec later callee args,
      outcome (specialize (.ofLimits {}) "double" [.array .i64 1]) store = (.ok spec, later) ∧
      spec.body = [.ret (.map callee args none (.array .bool 1))] ∧
      Annotate.typesOf args = [.array .i64 1, .array .i64 1] ∧
      Ty.ofRank (Prim.add.result [.i64, .i64]) (Ty.maxRank (Annotate.typesOf args)) =
        .array .i64 1 :=
  ⟨_, _, _, _, rfl, rfl, rfl, rfl⟩

end RankPoly
