import RankPoly.Proofs.AppendOnly
import RankPoly.Proofs.Session.Met

namespace RankPoly

open Session

-- What is kept for a function has been annotated from it, at some time of the session, and
-- has gone through both passes.
def Specialization.MadeFrom (settings : Settings) (func : Func) (args : List Ty)
    (spec : Specialization) : Prop :=
  ∃ depth waiting start last given coerced,
    outcome (func.annotate (settings.context depth waiting) args) start = (.ok given, last) ∧
      settings.coercion given = .ok coerced ∧ settings.optimizer coerced = .ok spec

-- All functions are known by their own names and were registered, apart from the wrappers
-- of operators, and all that is kept has been made from the function of that name.
structure Store.Sourced (settings : Settings) (defs : List Func) (store : Store) : Prop where
  origin : ∀ name func, store.funcs.find? name = some func →
    func ∈ defs ∧ func.name = name ∨ ∃ op, name = wrapperName op ∧ func = wrapper op
  made : ∀ request spec, store.specialization? request = some spec →
    ∃ func, store.funcs.find? request.func = some func ∧ spec.MadeFrom settings func request.args

namespace Store.Sourced

variable {settings : Settings} {defs : List Func} {store : Store}

theorem insert (h : store.Sourced settings defs) {name : String} {func : Func}
    (hfree : store.funcs.find? name = none)
    (hfunc : func ∈ defs ∧ func.name = name ∨ ∃ op, name = wrapperName op ∧ func = wrapper op) :
    Sourced settings defs { store with funcs := store.funcs.insert name func } where
  origin other known hknown := by
    rw [NameMap.find?_insert] at hknown
    split at hknown
    · rename_i heq
      cases heq
      cases hknown
      exact hfunc
    · exact h.origin other known hknown
  made request spec hspec := by
    obtain ⟨known, hknown, hmade⟩ := h.made request spec hspec
    exact ⟨known, (Store.Grows.insert hfree).funcs hknown, hmade⟩

theorem cons (h : store.Sourced settings defs) (func : Func) :
    store.Sourced settings (func :: defs) where
  origin name known hknown :=
    (h.origin name known hknown).imp_left fun ⟨hmem, hname⟩ => ⟨List.mem_cons_of_mem _ hmem, hname⟩
  made := h.made

end Store.Sourced

namespace Session

theorem kept_sourced (settings : Settings) (defs : List Func) :
    Kept settings (Store.Sourced settings defs) where
  counters _ h := ⟨h.origin, h.made⟩
  fresh _ _ h := ⟨h.origin, h.made⟩
  wrapper op h hfree := h.insert hfree (Or.inr ⟨op, rfl, rfl⟩)
  remember _ _ _ h _ := ⟨h.origin, h.made⟩
  keep := by
    intro store later depth waiting request func spec _ hlater hgrows _ hfunc _ hbuild
    refine ⟨hlater.origin, fun other found hfound => ?_⟩
    by_cases heq : request = other
    · subst heq
      obtain ⟨given, coerced, last, _, hgiven, hcoerced, hoptimized, -⟩ := passed_of_build hbuild
      have hspec : spec = found := by simpa [Store.specialization?] using hfound
      exact ⟨func, hgrows.funcs hfunc, depth, request :: waiting, _, last, given, coerced, hgiven,
        hcoerced, hspec ▸ hoptimized⟩
    · exact hlater.made other found (by simpa [Store.specialization?, heq] using hfound)

theorem lasting_sourced (settings : Settings) : Lasting settings (Store.Sourced settings) where
  start := ⟨nofun, nofun⟩
  kept := kept_sourced settings
  register := by
    intro defs store func known later h hregister
    rcases register_ok hregister with rfl | ⟨hfree, rfl⟩
    · exact h.cons func
    · exact (h.cons func).insert hfree (Or.inl ⟨List.mem_cons_self, rfl⟩)

-- Functions that are known stay known, whatever is done.
theorem grows_run (settings : Settings) : ∀ (ops : List Operation) (store : Store),
    store.Grows (ops.foldl (Operation.after settings) store)
  | [], store => .refl store
  | op :: ops, store =>
      ((op.grows_entered store).trans (after_leads (kept_trivial settings) store op).1).trans
        (grows_run settings ops _)

end Session

-- The wrapper of an operator is the function that applies it, from then on and whatever is
-- done, if nothing else has been registered under its name. All that is kept under the name
-- has been made from that function.
theorem primWrapper_wraps {settings : Settings} {defs : List Func} {store later : Store}
    (hstore : Reachable settings defs store) {op : Prim}
    (hdefs : ∀ func ∈ defs, func.name = wrapperName op → func = wrapper op) {name : String}
    (h : Yields (primWrapper op) store name later) (ops : List Operation) :
    let last := ops.foldl (Operation.after settings) later
    name = wrapperName op ∧ last.funcs.find? name = some (wrapper op) ∧
      ∀ args spec, last.specialization? ⟨name, args⟩ = some spec →
        spec.MadeFrom settings (wrapper op) args := by
  intro last
  unfold Yields at h
  rw [outcome_primWrapper] at h
  obtain ⟨hname, rfl⟩ := Prod.mk.inj h
  cases hname
  have hreached : Reachable settings defs (withWrapper op store) := by
    have hstep := hstore.step (.primWrapper op)
    simpa only [Operation.registered, Operation.after, outcome_primWrapper, List.nil_append]
      using hstep
  obtain ⟨defs', hlast⟩ := Reachable.run ops hreached
  obtain ⟨func, hfunc⟩ := NameMap.contains_iff.mp (contains_withWrapper op store)
  have hsourced := (lasting_sourced settings).of_reachable hreached
  have hwraps : func = wrapper op := by
    rcases hsourced.origin _ _ hfunc with ⟨hmem, hname⟩ | ⟨op', hname, heq⟩
    · exact hdefs func hmem hname
    · rw [heq, wrapperName_injective hname]
  have hfound : last.funcs.find? (wrapperName op) = some (wrapper op) :=
    (grows_run settings ops _).funcs (hwraps ▸ hfunc)
  refine ⟨rfl, hfound, fun args spec hspec => ?_⟩
  obtain ⟨known, hknown, hmade⟩ :=
    ((lasting_sourced settings).of_reachable hlast).made _ spec hspec
  cases hfound.symm.trans hknown
  exact hmade

-- The wrapper is asked for, then shadowed in vain, and then two arrays are added.
theorem primWrapper_add_wraps :
    let shadow := Demo.define "prim_add" ["x0", "x1"] [.ret (.const (.bool true))]
    let ops : List Operation := [.register shadow,
      .specializeFunc (Demo.binary "add" .add) [.array .i64 1, .array .f32 2]]
    let last := ops.foldl (Operation.after {}) (withWrapper .add {})
    (last.specialization? ⟨"prim_add", [.scalar .f64, .scalar .f64]⟩).isSome = true ∧
      last.funcs.find? "prim_add" = some (wrapper .add) ∧
      ∀ args spec, last.specialization? ⟨"prim_add", args⟩ = some spec →
        spec.MadeFrom {} (wrapper .add) args := by
  intro shadow ops last
  have hyields : Yields (primWrapper .add) {} "prim_add" (withWrapper .add {}) := rfl
  obtain ⟨-, hfound, hmade⟩ :=
    primWrapper_wraps (.start : Reachable {} [] {}) (List.forall_mem_nil _) hyields ops
  exact ⟨by decide +kernel, hfound, hmade⟩

-- A function that has taken the name first is given out as the wrapper, with no error.
theorem shadowed_wrapper_accepted :
    let shadow := Demo.define "prim_add" ["x0", "x1"] [.ret (.const (.bool true))]
    let store := Operation.after {} {} (.register shadow)
    Yields (primWrapper .add) store "prim_add" store ∧
      store.funcs.find? "prim_add" = some shadow ∧ shadow ≠ wrapper .add := by
  refine ⟨rfl, rfl, fun h => ?_⟩
  cases congrArg Func.body h

end RankPoly
