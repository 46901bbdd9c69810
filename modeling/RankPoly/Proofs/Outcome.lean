import RankPoly.Proofs.NameMap
import RankPoly.Session.Specialize

namespace RankPoly

-- How work on a store may end: with a value or an error, and in either case
-- with a store.
abbrev Outcome (α : Type) := Except SpecializeError α × Store

-- What comes of an outcome if a value is worked on further.
def Outcome.andThen {α β : Type} : Outcome α → (α → Store → Outcome β) → Outcome β
  | (.ok a, later), k => k a later
  | (.error error, later), _ => (.error error, later)

@[simp] theorem Outcome.andThen_ok {α β : Type} (a : α) (later : Store)
    (k : α → Store → Outcome β) : Outcome.andThen (.ok a, later) k = k a later := rfl

@[simp] theorem Outcome.andThen_error {α β : Type} (error : SpecializeError) (later : Store)
    (k : α → Store → Outcome β) : Outcome.andThen (.error error, later) k = (.error error, later) :=
  rfl

-- A property of stores that holds after a first step holds after both, if the
-- second step keeps it.
theorem Outcome.holds_andThen {α β : Type} {P : Store → Prop} {o : Outcome α}
    {k : α → Store → Outcome β} (h : P o.2)
    (hk : ∀ a later, o = (.ok a, later) → P later → P (k a later).2) : P (o.andThen k).2 := by
  rcases o with ⟨error | a, later⟩
  · exact h
  · exact hk a later rfl h

theorem Outcome.exists_ok {α : Type} {o : Outcome α} (h : o.1.isOk = true) :
    ∃ a later, o = (.ok a, later) := by
  rcases o with ⟨error | a, later⟩
  · cases h
  · exact ⟨a, later, rfl⟩

theorem Outcome.exists_later {α : Type} {o : Outcome α} {a : α} (h : o.1.toOption = some a) :
    ∃ later, o = (.ok a, later) := by
  rcases o with ⟨error | b, later⟩
  · cases h
  · cases h
    exact ⟨later, rfl⟩

namespace Session

variable {α β : Type}

def outcome (m : Session α) (store : Store) : Outcome α :=
  (m.run.run store).run

def Yields (m : Session α) (store : Store) (a : α) (later : Store) : Prop :=
  outcome m store = (.ok a, later)

@[simp] theorem outcome_pure (a : α) (store : Store) :
    outcome (pure a) store = (.ok a, store) := rfl

@[simp] theorem outcome_throw (error : SpecializeError) (store : Store) :
    outcome (throw error : Session α) store = (.error error, store) := rfl

theorem outcome_bind (m : Session α) (k : α → Session β) (store : Store) :
    outcome (m >>= k) store = (outcome m store).andThen fun a => outcome (k a) := by
  unfold outcome
  rw [ExceptT.run_bind, StateT.run_bind, Id.run_bind]
  rcases (m.run.run store).run with ⟨error | a, later⟩ <;> rfl

-- What follows a step matters only for what the step gives.
theorem outcome_bind_congr {m : Session α} {k k' : α → Session β} {store : Store}
    (h : ∀ a later, outcome m store = (.ok a, later) → outcome (k a) later = outcome (k' a) later) :
    outcome (m >>= k) store = outcome (m >>= k') store := by
  rw [outcome_bind, outcome_bind]
  rcases houtcome : outcome m store with ⟨error | a, later⟩
  · rfl
  · exact h a later houtcome

theorem outcome_count (change : Counters → Counters) (store : Store) :
    outcome (count change) store = (.ok (), { store with counters := change store.counters }) := rfl

theorem outcome_refresh (name : String) (store : Store) :
    outcome (refresh name) store =
      (.ok (store.fresh.refresh name).1, { store with fresh := (store.fresh.refresh name).2 }) := rfl

theorem yields_refresh {name fresh : String} {store later : Store} :
    Yields (refresh name) store fresh later ↔
      (store.fresh.refresh name).1 = fresh ∧
        { store with fresh := (store.fresh.refresh name).2 } = later := by
  unfold Yields
  rw [outcome_refresh]
  simp

theorem outcome_isRegistered (name : String) (store : Store) :
    outcome (isRegistered name) store = (.ok (NameMap.contains store.funcs name), store) := rfl

theorem outcome_lookup (name : String) (store : Store) :
    outcome (lookup name) store =
      match NameMap.find? name store.funcs with
      | some func => (.ok func, store)
      | none => (.error (.unknownFunc name), store) := by
  change outcome (match NameMap.find? name store.funcs with | some func => _ | none => _) store = _
  split <;> rfl

theorem outcome_register (func : Func) (store : Store) :
    outcome (register func) store =
      match NameMap.find? func.name store.funcs with
      | some known =>
        if known.same func then (.ok known, store) else (.error (.duplicateFunc func.name), store)
      | none => (.ok func, { store with funcs := NameMap.insert func.name func store.funcs }) := by
  change outcome (match NameMap.find? func.name store.funcs with | some known => _ | none => _)
    store = _
  split
  · split <;> rfl
  · rfl

theorem outcome_cached (request : Request) (store : Store) :
    outcome (cached request) store =
      match store.specialization? request with
      | some spec =>
        (.ok (some spec),
          { store with
            counters := { store.counters with cacheHits := store.counters.cacheHits + 1 } })
      | none => (.ok none, store) := by
  change outcome (match store.specialization? request with | some spec => _ | none => _) store = _
  split <;> rfl

theorem outcome_keep (request : Request) (spec : Specialization) (store : Store) :
    outcome (keep request spec) store =
      match store.specialization? request with
      | some known => (.ok known, store)
      | none => (.ok spec, { store with built := (request, spec) :: store.built }) := by
  change outcome (match store.specialization? request with | some known => _ | none => _) store = _
  split <;> rfl

theorem outcome_remembered (call : Call) (store : Store) :
    outcome (remembered call) store =
      match store.callType? call with
      | some ty =>
        (.ok (some ty),
          { store with
            counters := { store.counters with memoHits := store.counters.memoHits + 1 } })
      | none => (.ok none, store) := by
  change outcome (match store.callType? call with | some ty => _ | none => _) store = _
  split <;> rfl

-- The store with an operator's wrapper, which is added if its name is free.
def withWrapper (op : Prim) (store : Store) : Store :=
  if NameMap.contains store.funcs (wrapperName op) then store
  else { store with funcs := NameMap.insert (wrapperName op) (wrapper op) store.funcs }

@[simp] theorem withWrapper_built (op : Prim) (store : Store) :
    (withWrapper op store).built = store.built := by
  unfold withWrapper
  split <;> rfl

@[simp] theorem withWrapper_calls (op : Prim) (store : Store) :
    (withWrapper op store).calls = store.calls := by
  unfold withWrapper
  split <;> rfl

@[simp] theorem withWrapper_fresh (op : Prim) (store : Store) :
    (withWrapper op store).fresh = store.fresh := by
  unfold withWrapper
  split <;> rfl

@[simp] theorem withWrapper_counters (op : Prim) (store : Store) :
    (withWrapper op store).counters = store.counters := by
  unfold withWrapper
  split <;> rfl

theorem contains_withWrapper (op : Prim) (store : Store) :
    NameMap.contains (withWrapper op store).funcs (wrapperName op) = true := by
  unfold withWrapper
  split
  · assumption
  · exact NameMap.contains_iff.mpr ⟨_, NameMap.find?_insert_self _ _ _⟩

theorem withWrapper_of_contains {op : Prim} {store : Store}
    (h : NameMap.contains store.funcs (wrapperName op) = true) : withWrapper op store = store :=
  if_pos h

theorem outcome_primWrapper (op : Prim) (store : Store) :
    outcome (primWrapper op) store = (.ok (wrapperName op), withWrapper op store) := by
  unfold primWrapper withWrapper
  rw [outcome_bind, outcome_isRegistered, Outcome.andThen_ok]
  split
  · rfl
  · rename_i hfound
    have hnone : NameMap.find? (wrapper op).name store.funcs = none := by
      simpa [NameMap.contains, wrapper] using hfound
    simp only [outcome_bind, outcome_register, hnone]
    rfl

end Session

namespace Annotate

variable {α β : Type}

def outcome (m : Annotate α) (locals : Locals) (store : Store) : Outcome (α × Locals) :=
  Session.outcome (m.run locals) store

def Yields (m : Annotate α) (locals : Locals) (store : Store) (a : α) (locals' : Locals)
    (later : Store) : Prop :=
  outcome m locals store = (.ok (a, locals'), later)

@[simp] theorem outcome_pure (a : α) (locals : Locals) (store : Store) :
    outcome (pure a) locals store = (.ok (a, locals), store) := rfl

@[simp] theorem outcome_throw (error : SpecializeError) (locals : Locals) (store : Store) :
    outcome (throw error : Annotate α) locals store = (.error error, store) := rfl

theorem outcome_bind (m : Annotate α) (k : α → Annotate β) (locals : Locals) (store : Store) :
    outcome (m >>= k) locals store =
      (outcome m locals store).andThen fun result => outcome (k result.1) result.2 := by
  unfold outcome
  rw [StateT.run_bind, Session.outcome_bind]

theorem outcome_lift (m : Session α) (locals : Locals) (store : Store) :
    outcome (liftM m) locals store =
      (Session.outcome m store).andThen fun a later => (.ok (a, locals), later) := by
  change Session.outcome (m >>= fun a => pure (a, locals)) store = _
  exact Session.outcome_bind _ _ _

theorem outcome_get_bind (k : Locals → Annotate β) (locals : Locals) (store : Store) :
    outcome (get >>= k) locals store = outcome (k locals) locals store := rfl

theorem outcome_rename (name : String) (locals : Locals) (store : Store) :
    outcome (rename name) locals store =
      (.ok ((store.fresh.refresh name).1,
        { locals with names := NameMap.insert name (store.fresh.refresh name).1 locals.names }),
        { store with fresh := (store.fresh.refresh name).2 }) := rfl

theorem outcome_localFor (name : String) (locals : Locals) (store : Store) :
    outcome (localFor name) locals store =
      match NameMap.find? name locals.names with
      | some known => (.ok (known, locals), store)
      | none => outcome (rename name) locals store := by
  unfold localFor
  rw [outcome_get_bind]
  cases NameMap.find? name locals.names <;> rfl

theorem outcome_widen (name : String) (ty : Ty) (locals : Locals) (store : Store) :
    outcome (widen name ty) locals store =
      match NameMap.find? name locals.env with
      | none => (.ok (ty, { locals with env := NameMap.insert name ty locals.env }), store)
      | some known =>
        match known.combine ty with
        | .ok widened =>
          (.ok (widened, { locals with env := NameMap.insert name widened locals.env }), store)
        | .error error => (.error (.ofTy error), store) := by
  unfold widen
  rw [outcome_get_bind]
  cases NameMap.find? name locals.env with
  | none => rfl
  | some known =>
      cases h : known.combine ty <;> simp only [h, outcome_bind] <;> rfl

theorem outcome_read (name : String) (locals : Locals) (store : Store) :
    outcome (read name) locals store =
      match NameMap.find? name locals.names with
      | none => (.error (.unboundName name), store)
      | some known =>
        match NameMap.find? known locals.env with
        | none | some .unknown => (.error (.unboundName name), store)
        | some ty => (.ok ((known, ty), locals), store) := by
  unfold read
  rw [outcome_get_bind]
  cases NameMap.find? name locals.names with
  | none => rfl
  | some known =>
      simp only
      cases NameMap.find? known locals.env with
      | none => rfl
      | some ty => cases ty <;> rfl

theorem outcome_returns (ty : Ty) (locals : Locals) (store : Store) :
    outcome (returns ty) locals store =
      match locals.returnType with
      | none => (.ok ((), { locals with returnType := some ty }), store)
      | some known =>
        match known.combine ty with
        | .ok widened => (.ok ((), { locals with returnType := some widened }), store)
        | .error error => (.error (.ofTy error), store) := by
  unfold returns
  rw [outcome_get_bind]
  cases locals.returnType with
  | none => rfl
  | some known =>
      cases h : known.combine ty <;> simp only [h, outcome_bind] <;> rfl

theorem yields_pure {a b : α} {locals locals' : Locals} {store later : Store} :
    Yields (pure a) locals store b locals' later ↔ a = b ∧ locals = locals' ∧ store = later := by
  simp [Yields, and_assoc]

theorem yields_throw {error : SpecializeError} {b : α} {locals locals' : Locals}
    {store later : Store} : ¬Yields (throw error) locals store b locals' later := by
  simp [Yields]

theorem yields_bind {m : Annotate α} {k : α → Annotate β} {locals locals' : Locals}
    {store later : Store} {b : β} :
    Yields (m >>= k) locals store b locals' later ↔
      ∃ a middle between,
        Yields m locals store a middle between ∧ Yields (k a) middle between b locals' later := by
  unfold Yields
  rw [outcome_bind]
  rcases outcome m locals store with ⟨error | ⟨a, middle⟩, between⟩
  · simp
  · exact ⟨fun h => ⟨a, middle, between, rfl, h⟩, by rintro ⟨_, _, _, ⟨⟩, h⟩; exact h⟩

theorem yields_lift {m : Session α} {locals locals' : Locals} {store later : Store} {a : α} :
    Yields (liftM m) locals store a locals' later ↔
      locals = locals' ∧ Session.Yields m store a later := by
  unfold Yields Session.Yields
  rw [outcome_lift]
  rcases Session.outcome m store with ⟨error | b, between⟩ <;>
    simp [and_assoc, and_comm, and_left_comm]

theorem yields_get {a locals locals' : Locals} {store later : Store} :
    Yields get locals store a locals' later ↔ locals = a ∧ locals = locals' ∧ store = later := by
  constructor
  · rintro ⟨⟩
    exact ⟨rfl, rfl, rfl⟩
  · rintro ⟨rfl, rfl, rfl⟩
    rfl

theorem yields_rename {name known : String} {locals locals' : Locals} {store later : Store} :
    Yields (rename name) locals store known locals' later ↔
      known = (store.fresh.refresh name).1 ∧
        locals' = { locals with names := NameMap.insert name known locals.names } ∧
        later = { store with fresh := (store.fresh.refresh name).2 } := by
  unfold Yields
  rw [outcome_rename]
  constructor
  · rintro ⟨⟩
    exact ⟨rfl, rfl, rfl⟩
  · rintro ⟨rfl, rfl, rfl⟩
    rfl

-- Only a variable that has no local is given one.
theorem yields_localFor {name known : String} {locals locals' : Locals} {store later : Store} :
    Yields (localFor name) locals store known locals' later ↔
      (NameMap.find? name locals.names = some known ∧ locals = locals' ∧ store = later) ∨
        NameMap.find? name locals.names = none ∧
          Yields (rename name) locals store known locals' later := by
  unfold Yields
  rw [outcome_localFor]
  cases NameMap.find? name locals.names with
  | none => simp
  | some found => simp [and_assoc]

theorem yields_widen {name : String} {ty widened : Ty} {locals locals' : Locals}
    {store later : Store} :
    Yields (widen name ty) locals store widened locals' later ↔
      (match NameMap.find? name locals.env with
        | none => widened = ty
        | some known => known.combine ty = .ok widened) ∧
        locals' = { locals with env := NameMap.insert name widened locals.env } ∧
        later = store := by
  unfold Yields
  rw [outcome_widen]
  cases NameMap.find? name locals.env with
  | none =>
      constructor
      · rintro ⟨⟩
        exact ⟨rfl, rfl, rfl⟩
      · rintro ⟨rfl, rfl, rfl⟩
        rfl
  | some known =>
      simp only
      cases known.combine ty with
      | error error => simp
      | ok joined =>
          constructor
          · rintro ⟨⟩
            exact ⟨rfl, rfl, rfl⟩
          · rintro ⟨⟨⟩, rfl, rfl⟩
            rfl

theorem yields_returns {ty : Ty} {u : Unit} {locals locals' : Locals} {store later : Store} :
    Yields (returns ty) locals store u locals' later ↔
      ∃ widened,
        (match locals.returnType with
          | none => widened = ty
          | some known => known.combine ty = .ok widened) ∧
          locals' = { locals with returnType := some widened } ∧ later = store := by
  unfold Yields
  rw [outcome_returns]
  cases locals.returnType with
  | none =>
      constructor
      · rintro ⟨⟩
        exact ⟨ty, rfl, rfl, rfl⟩
      · rintro ⟨_, rfl, rfl, rfl⟩
        rfl
  | some known =>
      simp only
      cases known.combine ty with
      | error error => simp
      | ok joined =>
          constructor
          · rintro ⟨⟩
            exact ⟨joined, rfl, rfl, rfl⟩
          · rintro ⟨_, ⟨⟩, rfl, rfl⟩
            rfl

theorem yields_ofTy {result : Except TyError α} {locals locals' : Locals} {store later : Store}
    {a : α} :
    Yields (ofTy result) locals store a locals' later ↔
      result = .ok a ∧ locals = locals' ∧ store = later := by
  cases result with
  | ok b => simp [ofTy, yields_pure]
  | error error => simp [ofTy, yields_throw]

theorem yields_require {condition : Bool} {reason : ShapeError} {locals locals' : Locals}
    {store later : Store} {a : Unit} :
    Yields (require condition reason) locals store a locals' later ↔
      condition = true ∧ locals = locals' ∧ store = later := by
  cases condition with
  | true => simp [require, yields_pure]
  | false => simp [require, yields_throw]

end Annotate

end RankPoly
