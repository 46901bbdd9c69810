import Mathlib.Data.List.Nodup
import RankPoly.Proofs.Binding
import RankPoly.Proofs.Bounds
import RankPoly.Proofs.Session.Entered
import RankPoly.Proofs.Session.Received

namespace RankPoly

open Session
open Ty (AllParts Proper WidensTo)

theorem Func.Enters.nodup_names_iff {rule : Expr → TypedExpr → Prop} {func : Func}
    {names : NameMap String} {args : List Ty} {spec : Specialization}
    (h : func.Enters names args spec) (hbody : func.Elaborates rule names spec) :
    spec.params.names.Nodup ↔ func.params.names.Nodup := by
  rw [hbody.params, Annotate.names_localParams]
  refine ⟨List.Nodup.of_map _, fun hnodup => hnodup.map_on fun param hparam param' hparam' => ?_⟩
  exact h.localOf_injective hbody hparam hparam'

namespace Params

variable {params : Params} {args : List Ty} {binding : Binding} {name : String}

theorem length_inputs (h : params.bind args = .ok binding) :
    binding.inputs.length = max args.length params.positional.length := by
  obtain ⟨haccepts, rfl⟩ := bind_eq_ok_iff.mp h
  exact haccepts.length_inputs

theorem length_positional_bound (h : params.bind args = .ok binding) :
    (params.positional.zip binding.inputs).length = params.positional.length := by
  have hlength := length_inputs h
  rw [List.length_zip]
  omega

-- Each position stands where its type stands.
theorem bound_positional (h : params.bind args = .ok binding) {i : Nat}
    (hname : params.positional[i]? = some name) :
    ∃ ty, binding.inputs[i]? = some ty ∧ binding.params[i]? = some (name, ty) := by
  have hi : i < params.positional.length := (List.getElem?_eq_some_iff.mp hname).1
  have hlength := length_inputs h
  have hzip := length_positional_bound h
  have hinput := List.getElem?_eq_getElem (l := binding.inputs) (i := i) (by omega)
  obtain ⟨-, rfl⟩ := bind_eq_ok_iff.mp h
  refine ⟨_, hinput, ?_⟩
  change (List.zip _ (params.bound args).inputs ++ _)[i]? = _
  rw [List.getElem?_append_left (by omega)]
  exact List.getElem?_zip_eq_some.mpr ⟨hname, hinput⟩

-- What is left over stands behind all positions.
theorem bound_varargs (h : params.bind args = .ok binding) (hname : params.varargs = some name) :
    binding.params[params.positional.length]? =
      some (name, .tuple (args.drop params.positional.length)) := by
  have hzip := length_positional_bound h
  obtain ⟨-, rfl⟩ := bind_eq_ok_iff.mp h
  change (List.zip _ (params.bound args).inputs ++ _)[_]? = _
  rw [List.getElem?_append_right hzip.le, hzip, hname]
  simp

-- What is left over is passed on behind the types of the positions.
theorem drop_inputs (h : params.bind args = .ok binding) :
    binding.inputs.drop params.positional.length = args.drop params.positional.length := by
  obtain ⟨haccepts, rfl⟩ := bind_eq_ok_iff.mp h
  exact haccepts.drop_inputs

end Params

-- What a parameter has in the end covers what was bound to it, if no later one has its name.
theorem Func.Receives.covers {func : Func} {args : List Ty} {spec : Specialization}
    {binding : Binding} (h : func.Receives args spec) (hargs : ∀ arg ∈ args, AllParts Proper arg)
    (hflows : spec.Flows Proper (AllParts Proper)) (hbinding : func.params.bind args = .ok binding)
    {i : Nat} {param : String} {ty : Ty} (hi : binding.params[i]? = some (param, ty))
    (hlast : param ∉ func.params.names.drop (i + 1)) :
    ∃ known, spec.params.names[i]? = some known ∧ spec.env.Bounds WidensTo known ty := by
  obtain ⟨_, hbound, hreceives⟩ := h
  cases hbinding.symm.trans hbound
  rw [← Params.bind_names hbinding, ← List.map_drop] at hlast
  obtain ⟨known, hknown, hbounds⟩ := hreceives hi hlast
  have hproper := (Params.bind_parts Ty.stable_proper hargs hbinding).1
  exact ⟨known, hknown, hbounds.widensTo hflows.env (hproper _ (List.mem_of_getElem? hi))⟩

-- A specialization says what its call was. There is a type for each position and for each
-- argument that is left over, and what the parameters have in the end covers these types. Two
-- parameters of one name are listed under one local, which is that of the later one.
theorem specialize_matches_call {limits : Limits} {defs : List Func} {store later : Store}
    (hstore : Reachable (.ofLimits limits) defs store) {name : String} {args : List Ty}
    {spec : Specialization} (hargs : ∀ arg ∈ args, AllParts Proper arg)
    (h : outcome (specialize (.ofLimits limits) name args) store = (.ok spec, later)) :
    ∃ func, store.funcs.find? name = some func ∧
      (spec.params.names.Nodup ↔ func.params.names.Nodup) ∧
      spec.inputs.length = max args.length spec.params.positional.length ∧
      spec.inputs.drop spec.params.positional.length =
        args.drop spec.params.positional.length ∧
      (spec.params.varargs = none → spec.inputs.length = spec.params.positional.length) ∧
      (∀ i param, func.params.positional[i]? = some param →
        param ∉ func.params.names.drop (i + 1) →
        ∃ known ty, spec.params.positional[i]? = some known ∧ spec.inputs[i]? = some ty ∧
          spec.env.Bounds WidensTo known ty) ∧
      ∀ known ∈ spec.params.varargs, spec.env.Bounds WidensTo known
        (.tuple (args.drop spec.params.positional.length)) := by
  obtain ⟨func, names, hfunc, hbody, henters⟩ := hstore.entered h
  obtain ⟨hflows, hreceives⟩ :=
    hstore.received regime_proper hfunc (regime_proper.admits hargs) h
  obtain ⟨binding, hbinding, hinputs⟩ := henters.bound
  have hpositional : spec.params.positional.length = func.params.positional.length := by
    rw [hbody.params, Annotate.localParams_eq, List.length_map]
  have hvarargs : spec.params.varargs =
      func.params.varargs.map (Annotate.localOf { names }) := by
    rw [hbody.params, Annotate.localParams_eq]
  refine ⟨func, hfunc, henters.nodup_names_iff hbody, ?_, ?_, fun hnone => ?_,
    fun i param hi hlast => ?_, fun known hknown => ?_⟩
  · rw [hpositional, ← hinputs, Params.length_inputs hbinding]
  · rw [hpositional, ← hinputs, Params.drop_inputs hbinding]
  · have hsurplus := (Params.accepts_of_bind hbinding).surplus (by simpa [hvarargs] using hnone)
    rw [hpositional, ← hinputs, Params.length_inputs hbinding]
    omega
  · obtain ⟨ty, hty, hparam⟩ := Params.bound_positional hbinding hi
    obtain ⟨known, hknown, hbounds⟩ := hreceives.covers hargs hflows hbinding hparam hlast
    have hlt := (List.getElem?_eq_some_iff.mp hi).1
    rw [Params.names, List.getElem?_append_left (by omega)] at hknown
    exact ⟨known, ty, hknown, hinputs ▸ hty, hbounds⟩
  · obtain ⟨param, hparam, rfl⟩ := Option.mem_map.mp (hvarargs ▸ hknown)
    have hend : func.params.names.drop (func.params.positional.length + 1) = [] :=
      List.drop_eq_nil_of_le (by simp [Params.names, Option.mem_def.mp hparam])
    obtain ⟨last, hlast, hbounds⟩ := hreceives.covers hargs hflows hbinding
      (Params.bound_varargs hbinding hparam) (hend ▸ List.not_mem_nil)
    rw [Params.names, ← hpositional, List.getElem?_append_right le_rfl, Nat.sub_self,
      hvarargs, Option.mem_def.mp hparam] at hlast
    cases hlast
    rwa [hpositional]

-- The first parameter becomes a float, and two arguments are left over.
theorem specialize_ratio_matches_call :
    let ratio : Func :=
      { name := "ratio"
        params := { positional := ["x", "by"], defaults := [("by", .int 2)], varargs := some "rest" }
        body :=
          [.assign (.var "x") (.prim .div [.var "x", .var "by"]), .ret (.var "x")] }
    let store := Operation.after (.ofLimits {}) {} (.register ratio)
    let args : List Ty := [.i64, .i64, .bool, .none]
    ∃ spec later,
      outcome (specialize (.ofLimits {}) "ratio" args) store = (.ok spec, later) ∧
      spec.params.names = ["x.0", "by.1", "rest.2"] ∧ spec.params.names.Nodup ∧
      spec.inputs.length = 4 ∧ spec.env.Bounds WidensTo "x.0" .i64 ∧
      spec.env.Bounds WidensTo "rest.2" (.tuple [.bool, .none]) := by
  intro ratio store args
  have hstore : Reachable (.ofLimits {}) [ratio] store := .step (.register ratio) .start
  have hshape : (outcome (specialize (.ofLimits {}) "ratio" args) store).1.toOption.map
      (fun spec => (spec.params.positional, spec.params.varargs, spec.inputs)) =
        some (["x.0", "by.1"], some "rest.2", args) := by
    decide +kernel
  obtain ⟨spec, later, h⟩ := Outcome.exists_ok
    (o := outcome (specialize (.ofLimits {}) "ratio" args) store) (by decide +kernel)
  rw [h] at hshape
  obtain ⟨func, hfunc, hnodup, hlength, -, -, hcovers, hrest⟩ :=
    specialize_matches_call hstore (by decide) h
  have hratio : store.funcs.find? "ratio" = some ratio := rfl
  cases hratio.symm.trans hfunc
  simp only [Except.toOption, Option.map_some, Option.some.injEq, Prod.mk.injEq] at hshape
  obtain ⟨hpositional, hvarargs, hinputs⟩ := hshape
  rw [hpositional] at hlength hcovers hrest
  obtain ⟨known, ty, hknown, hty, hx⟩ := hcovers 0 "x" rfl (by decide)
  rw [hinputs] at hty
  cases hknown
  cases hty
  refine ⟨spec, later, h, by rw [Params.names, hpositional, hvarargs]; rfl, ?_, hlength, hx, ?_⟩
  · exact hnodup.mpr (by decide)
  · exact hrest "rest.2" hvarargs

-- Two parameters of one name are both listed under the local of the second one. It has the type
-- of the second argument, and nothing of the first one flows into it.
theorem specialize_shadowed_param :
    let second := Demo.define "second" ["x", "x"] [.ret (.var "x")]
    let store := Operation.after (.ofLimits {}) {} (.register second)
    ∃ spec later,
      outcome (specialize (.ofLimits {}) "second" [.array .i64 1, .i64]) store =
        (.ok spec, later) ∧
      spec.params.names = ["x.1", "x.1"] ∧ ¬spec.params.names.Nodup ∧
      spec.inputs = [.array .i64 1, .i64] ∧ ¬spec.env.Bounds WidensTo "x.1" (.array .i64 1) := by
  intro second store
  let run := outcome (specialize (.ofLimits {}) "second" [.array .i64 1, .i64]) store
  have hshape : run.1.toOption.map
      (fun spec => (spec.params.names, spec.inputs, spec.env.find? "x.1")) =
        some (["x.1", "x.1"], [.array .i64 1, .i64], some .i64) := by
    decide +kernel
  obtain ⟨spec, later, h⟩ := Outcome.exists_ok (o := run) (by decide +kernel)
  rw [h] at hshape
  simp only [Except.toOption, Option.map_some, Option.some.injEq, Prod.mk.injEq] at hshape
  obtain ⟨hnames, hinputs, hknown⟩ := hshape
  refine ⟨spec, later, h, hnames, by rw [hnames]; decide, hinputs, ?_⟩
  rintro ⟨known, hfind, hwidens⟩
  cases hknown.symm.trans hfind
  exact absurd hwidens (by decide)

end RankPoly
