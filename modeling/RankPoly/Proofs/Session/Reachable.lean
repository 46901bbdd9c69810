import RankPoly.Proofs.Session.Sound

namespace RankPoly

open Session

-- What a user of a session can ask for.
inductive Operation where
  | register (func : Func)
  | specialize (name : String) (args : List Ty)
  | specializeFunc (func : Func) (args : List Ty)
  | returnType (name : String) (args : List Ty)
  | invocationType (callee : Ty) (args : List Ty)
  | primWrapper (op : Prim)

namespace Operation

-- The store after an operation, whether it succeeds or fails.
def after (settings : Settings) (store : Store) : Operation → Store
  | .register func => (outcome (Session.register func) store).2
  | .specialize name args => (outcome (Session.specialize settings name args) store).2
  | .specializeFunc func args => (outcome (Session.specializeFunc settings func args) store).2
  | .returnType name args => (outcome (Session.returnType settings name args) store).2
  | .invocationType callee args =>
    (outcome (Session.invocationType settings callee args) store).2
  | .primWrapper op => (outcome (Session.primWrapper op) store).2

-- The definition that an operation registers, if it comes with one that is
-- accepted.
def registered (store : Store) : Operation → List Func
  | .register func | .specializeFunc func _ =>
    match outcome (Session.register func) store with
    | (.ok _, _) => [func]
    | (.error _, _) => []
  | _ => []

-- The store that the work of an operation starts from, once the definition that comes
-- with it has been registered or refused.
def entered (store : Store) : Operation → Store
  | .register func | .specializeFunc func _ => (outcome (Session.register func) store).2
  | _ => store

end Operation

-- The stores that operations lead to, in any order and with any outcomes, each
-- with the definitions that have been registered.
inductive Reachable (settings : Settings) : List Func → Store → Prop where
  | start : Reachable settings [] {}
  | step {defs : List Func} {store : Store} (op : Operation) : Reachable settings defs store →
      Reachable settings (op.registered store ++ defs) (op.after settings store)

-- Operations one after another lead from one such store to another.
theorem Reachable.run {settings : Settings} : ∀ (ops : List Operation) {defs : List Func}
    {store : Store}, Reachable settings defs store →
      ∃ defs', Reachable settings defs' (ops.foldl (Operation.after settings) store)
  | [], defs, _, h => ⟨defs, h⟩
  | op :: ops, _, _, h => run ops (.step op h)

namespace Session

variable {settings : Settings}

-- What has to be shown of a property for it to hold throughout a session.
structure Lasting (settings : Settings) (P : List Func → Store → Prop) : Prop where
  start : P [] {}
  kept : ∀ defs, Kept settings (P defs)
  register : ∀ {defs store func known later}, P defs store →
    outcome (Session.register func) store = (.ok known, later) → P (func :: defs) later

theorem specialize_leads {P : Store → Prop} (hP : Kept settings P) (name : String)
    (args : List Ty) (store : Store) :
    Leads P store (outcome (specialize settings name args) store).2 := by
  rw [outcome_specialize]
  split
  · exact (serves_specializeWithin hP _ _).leads _ store
  · exact .refl store

theorem specialize_kept {P : Store → Prop} (hP : Kept settings P) (name : String)
    (args : List Ty) {store : Store} (h : P store) :
    P (outcome (specialize settings name args) store).2 :=
  (specialize_leads hP name args store).2 h

theorem after_leads {P : Store → Prop} (hP : Kept settings P) (store : Store) (op : Operation) :
    Leads P (op.entered store) (op.after settings store) := by
  cases op with
  | register func => exact .refl _
  | specialize name args => exact specialize_leads hP name args store
  | specializeFunc func args =>
      simp only [Operation.entered, Operation.after, outcome_specializeFunc]
      exact Leads.andThen (.refl _) fun known later _ => specialize_leads hP known.name args later
  | returnType name args =>
      simp only [Operation.entered, Operation.after, outcome_returnType]
      exact (specialize_leads hP name args store).andThen fun spec later _ => .refl later
  | invocationType callee args =>
      exact (serves_specializeWithin hP _ _).leads_invokeWith hP store callee args
  | primWrapper op =>
      simp only [Operation.entered, Operation.after, outcome_primWrapper]
      exact .withWrapper hP store op

theorem Lasting.entered {P : List Func → Store → Prop} (hP : Lasting settings P)
    {defs : List Func} {store : Store} (h : P defs store) (op : Operation) :
    P (op.registered store ++ defs) (op.entered store) := by
  have hregister : ∀ func, P ((Operation.register func).registered store ++ defs)
      (outcome (Session.register func) store).2 := by
    intro func
    simp only [Operation.registered]
    rcases hregister : outcome (Session.register func) store with ⟨error | known, later⟩
    · cases register_error hregister
      exact h
    · exact hP.register h hregister
  cases op with
  | register func | specializeFunc func args => exact hregister func
  | _ => exact h

theorem Lasting.step {P : List Func → Store → Prop} (hP : Lasting settings P) {defs : List Func}
    {store : Store} (h : P defs store) (op : Operation) :
    P (op.registered store ++ defs) (op.after settings store) :=
  (after_leads (hP.kept _) store op).2 (hP.entered h op)

theorem Lasting.of_reachable {P : List Func → Store → Prop} (hP : Lasting settings P)
    {defs : List Func} {store : Store} (h : Reachable settings defs store) : P defs store := by
  induction h with
  | start => exact hP.start
  | step op _ ih => exact hP.step ih op

theorem lasting_sound (limits : Limits) : Lasting (.ofLimits limits) Sound where
  start :=
    { registry := ⟨fun _ h => (List.not_mem_nil h).elim, fun h => nomatch h⟩
      grounded := .nil
      coherent := fun _ _ _ h => nomatch h }
  kept := kept_sound limits
  register := by
    intro defs store func known later h hregister
    have hregistry := h.registry.register hregister
    rcases register_ok hregister with rfl | ⟨hfree, rfl⟩
    · exact ⟨hregistry, h.grounded, h.coherent⟩
    · exact ⟨hregistry, h.grounded.mono (Store.Grows.insert hfree).funcs, h.coherent⟩

end Session

end RankPoly
