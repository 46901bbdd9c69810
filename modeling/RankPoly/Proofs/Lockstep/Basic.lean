import Mathlib.Logic.Embedding.Basic
import RankPoly.Proofs.Alike.Source
import RankPoly.Proofs.Outcome

namespace RankPoly

-- How the sources of two runs correspond: variables may have other names, and
-- numbers may be written in other ways.
structure Correspondence where
  var : String → String
  literal : Const → Const → Prop
  injective : Function.Injective var
  literal_refl : ∀ c, literal c c
  literal_cases : ∀ {c d}, literal c d → c = d ∨ ∃ x y, c = .float x ∧ d = .float y

namespace Correspondence

def naming (c : Correspondence) : Naming :=
  fun m n => c.var m = n

-- Sources that count as the same function.
def same : Correspondence where
  var := id
  literal := Const.Same
  injective := Function.injective_id
  literal_refl := Const.Same.refl
  literal_cases := by
    intro c d h
    cases c <;> cases d <;> simp_all [Const.Same, Const.same]

-- Sources that are equal up to the names of variables.
def renamed (var : String ↪ String) : Correspondence where
  var := var
  literal := Eq
  injective := var.injective
  literal_refl _ := rfl
  literal_cases h := Or.inl h

-- Sources that are equal.
def equal : Correspondence :=
  renamed (.refl String)

theorem ty_eq (c : Correspondence) {b d : Const} (h : c.literal b d) : b.ty = d.ty := by
  rcases c.literal_cases h with rfl | ⟨x, y, rfl, rfl⟩ <;> rfl

end Correspondence

-- Errors that say the same of corresponding sources.
inductive SpecializeError.Alike (c : Correspondence) : SpecializeError → SpecializeError → Prop where
  | refl (error : SpecializeError) : Alike c error error
  | unboundName (name : String) : Alike c (.unboundName name) (.unboundName (c.var name))
  | missing (name : String) :
      Alike c (.shape (.binding (.missing name))) (.shape (.binding (.missing (c.var name))))
  | target {x y : Expr} : x.Alike c.naming c.literal y →
      Alike c (.shape (.target x)) (.shape (.target y))
  | axis {x y : Expr} : x.Alike c.naming c.literal y →
      Alike c (.unsupported (.axis x)) (.unsupported (.axis y))

-- What is compared when two runs go in lockstep. The stores of both stay in
-- agreement. The store of the left run grows, and only such runs count whose
-- last store is within a bound. Names are drawn in both runs at a time, for names
-- that are asked for in both, and what is held of such a pair is held on. A run may
-- stop alone if it is free to, and errors that stop both are related.
structure Comparison extends Correspondence where
  agree : Store → Store → Prop
  grows : Store → Store → Prop
  within : Store → Prop
  asked : String → String → Prop := fun _ _ => True
  held : Store → String → String → Prop
  leftFree : Store → Prop
  rightFree : Store → Prop
  errors : SpecializeError → SpecializeError → Prop := SpecializeError.Alike toCorrespondence

-- Values of two runs that are alike, given which local names correspond. More
-- names may correspond later.
structure Likeness (α : Type) where
  rel : Naming → α → α → Prop
  refl : ∀ a, rel Eq a a
  mono : ∀ {naming later : Naming} {a b : α}, naming ≤ later → rel naming a b → rel later a b

namespace Comparison

variable {W : Comparison} {naming : Naming} {α β : Type}

-- Where two runs stand inside of a function.
structure Linked (W : Comparison) (naming : Naming) (locals : Locals) (store : Store)
    (locals' : Locals) (store' : Store) : Prop where
  unique : Relator.BiUnique naming
  drawn : ∀ {m n}, naming m n → store.fresh.Drew m ∧ store'.fresh.Drew n
  held : ∀ {m n}, naming m n → W.held store m n
  names : ∀ name,
    Option.Rel naming (locals.names.find? name) (locals'.names.find? (W.var name))
  env : locals.env.Alike naming Eq locals'.env
  sorted : locals.env.Sorted ∧ locals'.env.Sorted
  returnType : locals.returnType = locals'.returnType
  agree : W.agree store store'

-- Outcomes of two runs. What has to hold when both give a value is up to `good`.
def Matched (W : Comparison) (good : α → Store → β → Store → Prop) :
    Outcome α → Outcome β → Prop
  | (.ok a, store), (.ok b, store') => good a store b store'
  | (.ok _, _), (.error _, store') => W.rightFree store'
  | (.error _, store), (.ok _, _) => W.leftFree store
  | (.error e, store), (.error f, store') =>
    W.leftFree store ∨ W.rightFree store' ∨
      W.agree store store' ∧ W.errors e f

def Ends (W : Comparison) (naming : Naming) (P : Likeness α) :
    Outcome (α × Locals) → Outcome (α × Locals) → Prop :=
  W.Matched fun a store b store' =>
    ∃ later, naming ≤ later ∧ W.Linked later a.2 store b.2 store' ∧ P.rel later a.1 b.1

-- Two computations that go in lockstep from wherever the runs are linked.
structure Sim (W : Comparison) (naming : Naming) (P : Likeness α) (m m' : Annotate α) :
    Prop where
  grows : ∀ locals store, W.grows store (m.outcome locals store).2
  ends : ∀ {later}, naming ≤ later → ∀ {locals store locals' store'},
    W.Linked later locals store locals' store' → W.within (m.outcome locals store).2 →
      W.Ends later P (m.outcome locals store) (m'.outcome locals' store')

-- Calls from stores in agreement that are answered alike.
def Answers (W : Comparison) (store store' : Store) : Outcome Ty → Outcome Ty → Prop :=
  W.Matched fun ty later ty' later' =>
    ty = ty' ∧ W.agree later later' ∧ store.fresh.next ≤ later.fresh.next ∧
      store'.fresh.next ≤ later'.fresh.next

-- The call of an operator's wrapper, which is added to the store if need be.
def lifted (invoke : Ty → List Ty → Session Ty) (op : Prim) (args : List Ty) : Session Ty := do
  let name ← Session.primWrapper op
  invoke (.closure ⟨name, []⟩) args

theorem outcome_lifted (invoke : Ty → List Ty → Session Ty) (op : Prim) (args : List Ty)
    (store : Store) :
    Session.outcome (lifted invoke op args) store =
      Session.outcome (invoke (.closure ⟨Session.wrapperName op, []⟩) args)
        (Session.withWrapper op store) := by
  unfold lifted
  rw [Session.outcome_bind, Session.outcome_primWrapper, Outcome.andThen_ok]

theorem Answers.of_withWrapper {op op' : Prim} {store store' : Store} {o o' : Outcome Ty}
    (h : W.Answers (Session.withWrapper op store) (Session.withWrapper op' store') o o') :
    W.Answers store store' o o' := by
  simpa only [Answers, Session.withWrapper_fresh] using h

-- What two surroundings have to keep up so that all annotations in them go in
-- lockstep.
structure Respects (W : Comparison) (ctx ctx' : Annotate.Context) : Prop where
  grows_refl : ∀ store, W.grows store store
  grows_trans : ∀ {store between later},
    W.grows store between → W.grows between later → W.grows store later
  within_of_grows : ∀ {store later}, W.grows store later → W.within later → W.within store
  grows_fresh : ∀ store name,
    W.grows store { store with fresh := (store.fresh.refresh name).2 }
  grows_invoke : ∀ store callee args,
    W.grows store (Session.outcome (ctx.invoke callee args) store).2
  grows_lifted : ∀ store op args,
    W.grows store (Session.outcome (lifted ctx.invoke op args) store).2
  agree_fresh : ∀ {store store'} (name name' : String), W.agree store store' →
    W.agree { store with fresh := (store.fresh.refresh name).2 }
      { store' with fresh := (store'.fresh.refresh name').2 }
  asked_var : ∀ name, W.asked name (W.var name)
  held_refresh : ∀ {store store' name name'}, W.asked name name' → W.agree store store' →
    W.held { store with fresh := (store.fresh.refresh name).2 } (store.fresh.refresh name).1
      (store'.fresh.refresh name').1
  held_grows : ∀ {store later name name'}, W.grows store later → W.held store name name' →
    W.held later name name'
  errors_of_alike : ∀ {e f}, e.Alike W.toCorrespondence f → W.errors e f
  registered : ∀ {store store'} (func : String), W.agree store store' → W.within store →
    store.funcs.contains func = store'.funcs.contains func ∨
      if store.funcs.contains func then W.rightFree store' else W.leftFree store
  invoke : ∀ {store store'} callee args, W.agree store store' →
    W.within (Session.outcome (ctx.invoke callee args) store).2 →
      W.Answers store store' (Session.outcome (ctx.invoke callee args) store)
        (Session.outcome (ctx'.invoke callee args) store')
  lifted : ∀ {store store'} op args, W.agree store store' →
    W.within (Session.outcome (lifted ctx.invoke op args) store).2 →
      W.Answers store store' (Session.outcome (lifted ctx.invoke op args) store)
        (Session.outcome (lifted ctx'.invoke op args) store')
  limit_lt : ctx.loopLimit < ctx'.loopLimit → ∀ store, W.leftFree store
  limit_gt : ctx'.loopLimit < ctx.loopLimit → ∀ {store store'}, W.agree store store' →
    W.rightFree store'

-- Runs of one function, of which nothing is asked but that their stores stay in agreement.
def agreeing (agree : Store → Store → Prop) (leftFree rightFree : Store → Prop) : Comparison :=
  { Correspondence.same with
    agree
    grows := fun _ _ => True
    within := fun _ => True
    held := fun _ _ _ => True
    leftFree
    rightFree }

-- What is left to keep up for two surroundings then.
structure Agrees (agree : Store → Store → Prop) (leftFree rightFree : Store → Prop)
    (ctx ctx' : Annotate.Context) : Prop where
  fresh : ∀ {store store'} (name name' : String), agree store store' →
    agree { store with fresh := (store.fresh.refresh name).2 }
      { store' with fresh := (store'.fresh.refresh name').2 }
  registered : ∀ {store store'} (func : String), agree store store' →
    store.funcs.contains func = store'.funcs.contains func ∨
      if store.funcs.contains func then rightFree store' else leftFree store
  invoke : ∀ {store store'} callee args, agree store store' →
    (agreeing agree leftFree rightFree).Answers store store'
      (Session.outcome (ctx.invoke callee args) store)
      (Session.outcome (ctx'.invoke callee args) store')
  lifted : ∀ {store store'} op args, agree store store' →
    (agreeing agree leftFree rightFree).Answers store store'
      (Session.outcome (lifted ctx.invoke op args) store)
      (Session.outcome (lifted ctx'.invoke op args) store')
  limit_lt : ctx.loopLimit < ctx'.loopLimit → ∀ store, leftFree store
  limit_gt : ctx'.loopLimit < ctx.loopLimit → ∀ {store store'}, agree store store' →
    rightFree store'

theorem Agrees.respects {agree : Store → Store → Prop} {leftFree rightFree : Store → Prop}
    {ctx ctx' : Annotate.Context} (h : Agrees agree leftFree rightFree ctx ctx') :
    (agreeing agree leftFree rightFree).Respects ctx ctx' where
  grows_refl _ := trivial
  grows_trans _ _ := trivial
  within_of_grows _ _ := trivial
  grows_fresh _ _ := trivial
  grows_invoke _ _ _ := trivial
  grows_lifted _ _ _ := trivial
  agree_fresh := h.fresh
  asked_var _ := trivial
  held_refresh _ _ := trivial
  held_grows _ _ := trivial
  errors_of_alike halike := halike
  registered func hagree _ := h.registered func hagree
  invoke callee args hagree _ := h.invoke callee args hagree
  lifted op args hagree _ := h.lifted op args hagree
  limit_lt := h.limit_lt
  limit_gt := h.limit_gt

end Comparison

namespace Likeness

variable {α β : Type}

def eq (α : Type) : Likeness α where
  rel _ a b := a = b
  refl _ := rfl
  mono _ h := h

def name : Likeness String where
  rel naming m n := naming m n
  refl _ := rfl
  mono hle h := hle _ _ h

def pair (P : Likeness α) (Q : Likeness β) : Likeness (α × β) where
  rel naming a b := P.rel naming a.1 b.1 ∧ Q.rel naming a.2 b.2
  refl a := ⟨P.refl a.1, Q.refl a.2⟩
  mono hle h := ⟨P.mono hle h.1, Q.mono hle h.2⟩

def list (P : Likeness α) : Likeness (List α) where
  rel naming := List.Forall₂ (P.rel naming)
  refl _ := List.forall₂_same.mpr fun _ _ => P.refl _
  mono hle h := h.imp fun _ _ => P.mono hle

def option (P : Likeness α) : Likeness (Option α) where
  rel naming := Option.Rel (P.rel naming)
  refl a := by
    cases a with
    | none => exact .none
    | some a => exact .some (P.refl a)
  mono hle h := optionRel_imp (fun _ _ => P.mono hle) h

-- Values that are alike in what `f` sees of them.
def on (P : Likeness β) (f : α → β) : Likeness α where
  rel naming a b := P.rel naming (f a) (f b)
  refl a := P.refl (f a)
  mono := P.mono

def typed (c : Correspondence) : Likeness TypedExpr where
  rel naming := TypedExpr.Alike naming c.literal
  refl := TypedExpr.Alike.refl c.literal_refl
  mono hle h := h.mono hle

end Likeness

end RankPoly
