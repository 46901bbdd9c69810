import RankPoly.Proofs.Flow.Func
import RankPoly.Proofs.Session.Reachable

namespace RankPoly

open Session
open Ty (AllParts)

-- Passes that leave the type that is returned of one kind, if it is of that kind.
def Settings.Keeps (settings : Settings) (p : Ty → Prop) : Prop :=
  ∀ {spec spec'}, settings.coercion spec = .ok spec' ∨ settings.optimizer spec = .ok spec' →
    AllParts p spec.returnType → AllParts p spec'.returnType

theorem Settings.keeps_ofLimits (limits : Limits) (p : Ty → Prop) : (ofLimits limits).Keeps p := by
  intro spec spec' h hspec
  have heq : spec = spec' := h.elim Except.ok.inj Except.ok.inj
  exact heq ▸ hspec

-- What an annotation sees of a session, in the course of a request that others wait
-- for.
def Settings.context (settings : Settings) (depth : Nat) (waiting : List Request) :
    Annotate.Context where
  loopLimit := settings.limits.maxLoopIterations
  invoke := invokeWith (specializeWithin settings depth waiting)

-- The stores that there are in the course of a session, also while a request is
-- being served.
inductive Met (settings : Settings) : Store → Prop where
  | reached {defs : List Func} {store : Store} : Reachable settings defs store → Met settings store
  | counters {store : Store} (counters : Counters) : Met settings store →
      Met settings { store with counters }
  | fresh {store : Store} (name : String) : Met settings store →
      Met settings { store with fresh := (store.fresh.refresh name).2 }
  | wrapper {store : Store} (op : Prim) : Met settings store → Met settings (withWrapper op store)
  | specialize {store : Store} (depth : Nat) (waiting : List Request) (request : Request) :
      Met settings store →
      Met settings (outcome (specializeWithin settings depth waiting request) store).2
  | invoke {store : Store} (depth : Nat) (waiting : List Request) (callee : Ty) (args : List Ty) :
      Met settings store →
      Met settings
        (outcome (invokeWith (specializeWithin settings depth waiting) callee args) store).2

-- Calls are remembered as they are answered, and what is kept for arguments of one
-- kind returns what is of that kind.
structure Store.Sure (p : Ty → Prop) (store : Store) : Prop where
  coherent : store.Coherent
  answers : store.Answers p

theorem Store.Sure.withWrapper {p : Ty → Prop} {store : Store} (h : store.Sure p) (op : Prim) :
    (Session.withWrapper op store).Sure p := by
  unfold Session.withWrapper
  split
  · exact h
  · exact ⟨h.coherent, h.answers⟩

namespace Session

variable {settings : Settings} {p bound : Ty → Prop} {P : Store → Prop} {store later : Store}

-- What lasts throughout a session holds at any time of it, of the definitions by then.
theorem Lasting.exists_of_met {P : List Func → Store → Prop} (hP : Lasting settings P)
    (h : Met settings store) : ∃ defs, P defs store := by
  induction h with
  | @reached defs _ h => exact ⟨defs, hP.of_reachable h⟩
  | counters counters _ ih => exact ih.imp fun defs h => (hP.kept defs).counters counters h
  | fresh name _ ih => exact ih.imp fun defs h => (hP.kept defs).fresh _ (by simp) h
  | wrapper op _ ih => exact ih.imp fun defs h => (Leads.withWrapper (hP.kept defs) _ op).2 h
  | specialize depth waiting request _ ih =>
      exact ih.imp fun defs h =>
        ((serves_specializeWithin (hP.kept defs) depth waiting).leads request _).2 h
  | invoke depth waiting callee args _ ih =>
      refine ih.imp fun defs h => ?_
      exact ((serves_specializeWithin (hP.kept defs) depth waiting).leads_invokeWith (hP.kept defs)
        _ callee args).2 h

theorem Lasting.of_met (hP : Lasting settings fun _ => P) (h : Met settings store) : P store := by
  obtain ⟨-, hstore⟩ := hP.exists_of_met h
  exact hstore

-- What is built has been annotated, and has gone through both passes.
theorem passed_of_build {invoke : Ty → List Ty → Session Ty} {func : Func} {args : List Ty}
    {spec : Specialization} (h : outcome (build settings invoke func args) store = (.ok spec, later)) :
    ∃ given coerced last counters,
      outcome (func.annotate { loopLimit := settings.limits.maxLoopIterations, invoke } args)
        (inferring store) = (.ok given, last) ∧
      settings.coercion given = .ok coerced ∧ settings.optimizer coerced = .ok spec ∧
      later = { last with counters } := by
  rw [outcome_build] at h
  rcases hannotate : outcome (func.annotate
    { loopLimit := settings.limits.maxLoopIterations, invoke } args) (inferring store) with
    ⟨error | given, last⟩ <;> rw [hannotate] at h
  · cases h
  · rw [Outcome.andThen_ok, outcome_bind, outcome_runPass] at h
    cases hcoerced : settings.coercion given with
    | error error =>
        rw [hcoerced] at h
        cases h
    | ok coerced =>
        rw [hcoerced, Outcome.andThen_ok, outcome_runPass] at h
        obtain ⟨hoptimized, rfl⟩ := Prod.mk.inj h
        exact ⟨given, coerced, last, _, rfl, hcoerced, hoptimized, rfl⟩

-- Annotations in a session have what they rely on, whatever its passes do, as long
-- as what is kept is of the wanted kind.
theorem flowing_context (hp : Regime p bound) (hsure : ∀ {store}, P store → store.Sure p)
    (hfresh : ∀ {store} name, P store → P { store with fresh := (store.fresh.refresh name).2 })
    (hwrapper : ∀ {store} op, P store → P (withWrapper op store)) {depth : Nat}
    {waiting : List Request}
    (hinvoke : ∀ {store}, P store → ∀ callee args,
      P (outcome (invokeWith (specializeWithin settings depth waiting) callee args) store).2) :
    Annotate.Flowing p bound P (settings.context depth waiting) where
  regime := hp
  fresh := hfresh
  addWrapper := hwrapper
  invoke := by
    intro store callee args ty later hstore hcallee hargs h
    change outcome (invokeWith (specializeWithin settings depth waiting) callee args) store =
      (.ok ty, later) at h
    have hserves := serves_specializeWithin (kept_trivial settings) depth waiting
    have hgrows := grows_invokeWith settings depth waiting callee args store
    have hlater := hinvoke hstore callee args
    rw [h] at hgrows hlater
    have hanswer := invokeWith_answer hserves (hsure hstore).coherent h
    exact ⟨hgrows, hlater, hp.stable.answer (hsure hlater).answers hargs hcallee hanswer⟩

theorem Kept.flowing (hP : Kept settings P) (hp : Regime p bound)
    (hsure : ∀ {store}, P store → store.Sure p) (depth : Nat) (waiting : List Request) :
    Annotate.Flowing p bound P (settings.context depth waiting) := by
  refine flowing_context hp hsure (fun name h => hP.fresh _ (by simp) h)
    (fun op h => (Leads.withWrapper hP _ op).2 h) fun {store} h callee args => ?_
  exact ((serves_specializeWithin hP depth waiting).leads_invokeWith hP store callee args).2 h

-- A new specialization has a result of the wanted kind if its arguments are, as the
-- annotation gives one and the passes leave it so.
theorem kept_sure (hp : Regime p bound) (hpasses : settings.Keeps p) :
    Kept settings (Store.Sure p) where
  counters _ h := ⟨h.coherent, h.answers⟩
  fresh _ _ h := ⟨h.coherent, h.answers⟩
  wrapper _ h _ := ⟨h.coherent, h.answers⟩
  remember _ _ _ h hanswer := ⟨h.coherent.remember hanswer, h.answers⟩
  keep := by
    intro store later depth waiting request func spec hstore hlater hgrows hnew hfunc hinvoke hbuild
    refine ⟨hlater.coherent.keep hnew, ?_⟩
    intro other ty hargs hresult
    unfold Store.result? resultIn at hresult
    rw [List.find?_cons] at hresult
    split at hresult
    · rename_i heq
      cases of_decide_eq_true heq
      cases hresult
      obtain ⟨given, coerced, last, counters, hannotate, hcoerced, hoptimized, -⟩ :=
        passed_of_build hbuild
      obtain ⟨locals, hyields⟩ := Annotate.yields_of_annotate hannotate
      have hflowing : Annotate.Flowing p bound (Store.Sure p)
          (settings.context depth (request :: waiting)) :=
        flowing_context hp id (fun _ h => ⟨h.coherent, h.answers⟩) (fun op h => h.withWrapper op)
          hinvoke
      have hinferring : (inferring store).Sure p := ⟨hstore.coherent, hstore.answers⟩
      obtain ⟨-, hflows⟩ := Annotate.func_flows hflowing hinferring (hp.admits hargs) hyields
      exact hpasses (Or.inr hoptimized) (hpasses (Or.inl hcoerced) hflows.returnType)
    · exact hlater.answers hargs hresult

theorem lasting_sure (hp : Regime p bound) (hpasses : settings.Keeps p) :
    Lasting settings fun _ => Store.Sure p where
  start := ⟨(fun _ _ _ h => nomatch h), (fun _ h => nomatch h)⟩
  kept _ := kept_sure hp hpasses
  register := by
    intro defs store func known later h hregister
    rcases register_ok hregister with rfl | ⟨-, rfl⟩
    · exact h
    · exact ⟨h.coherent, h.answers⟩

end Session

end RankPoly
