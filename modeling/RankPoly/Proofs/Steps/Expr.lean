import RankPoly.Annotate.Expr
import RankPoly.Proofs.Steps.Apply

namespace RankPoly

-- The local that each variable has.
def Locals.naming (locals : Locals) : Naming :=
  fun name known => locals.names.find? name = some known

namespace Annotate

variable {ctx : Context} {locals locals' : Locals} {store later : Store}

theorem yields_read {name known : String} {ty : Ty}
    (h : Yields (read name) locals store (known, ty) locals' later) :
    locals.naming name known ∧ locals.env.find? known = some ty ∧ ty ≠ .unknown ∧
      locals = locals' ∧ store = later := by
  unfold Yields at h
  rw [outcome_read] at h
  split at h
  · cases h
  · rename_i found hfound
    split at h
    · cases h
    · cases h
    · rename_i found hne hty
      cases h
      exact ⟨hfound, hty, hne, rfl, rfl⟩

-- The check of a name before a closure of it is made.
theorem yields_requireFunc {α : Type} {func : String} {m : Annotate α} {a : α} :
    Yields (do
      if !(← Session.isRegistered func) then throw (SpecializeError.unknownFunc func)
      m) locals store a locals' later ↔
    store.funcs.contains func = true ∧ Yields m locals store a locals' later := by
  unfold Yields
  rw [outcome_bind, outcome_lift, Session.outcome_isRegistered]
  cases hname : NameMap.contains store.funcs func with
  | false => exact ⟨(fun h => nomatch h), fun h => (nomatch h.1)⟩
  | true => exact ⟨fun h => ⟨rfl, h⟩, And.right⟩

-- The steps by which an expression of each kind has been typed.
section Steps

variable {name : String} {e f : Expr} {es : List Expr} {operand : Option Expr} {t : TypedExpr}
  {ts : List TypedExpr}

theorem yields_var (h : Yields (expr ctx (.var name)) locals store t locals' later) :
    ∃ known ty, locals.naming name known ∧ locals.env.find? known = some ty ∧ ty ≠ .unknown ∧
      t = .var known ty ∧ locals = locals' ∧ store = later := by
  simp only [expr, yields_bind, Prod.exists, yields_pure] at h
  obtain ⟨known, ty, _, _, hread, rfl, rfl, rfl⟩ := h
  obtain ⟨hknown, hty, hne, rfl, rfl⟩ := yields_read hread
  exact ⟨known, ty, hknown, hty, hne, rfl, rfl, rfl⟩

theorem yields_const {value : Const}
    (h : Yields (expr ctx (.const value)) locals store t locals' later) :
    t = .const value value.ty ∧ locals = locals' ∧ store = later := by
  simp only [expr, yields_pure] at h
  obtain ⟨rfl, rfl, rfl⟩ := h
  exact ⟨rfl, rfl, rfl⟩

theorem yields_tuple (h : Yields (expr ctx (.tuple es)) locals store t locals' later) :
    ∃ ts, Yields (exprs ctx es) locals store ts locals' later ∧
      t = .tuple ts (.tuple (typesOf ts)) := by
  simp only [expr, yields_bind, yields_pure] at h
  obtain ⟨ts, _, _, hexprs, rfl, rfl, rfl⟩ := h
  exact ⟨ts, hexprs, rfl⟩

theorem yields_array (h : Yields (expr ctx (.array es)) locals store t locals' later) :
    ∃ ts elem ty, (!es.isEmpty) = true ∧ Yields (exprs ctx es) locals store ts locals' later ∧
      Ty.combineAll (typesOf ts) = .ok elem ∧ elem.increaseRank 1 = .ok ty ∧ t = .array ts ty := by
  simp only [expr, yields_bind, yields_require, yields_ofTy, yields_pure] at h
  obtain ⟨_, _, _, ⟨hsome, rfl, rfl⟩, ts, _, _, hexprs, elem, _, _, ⟨helem, rfl, rfl⟩, ty, _, _,
    ⟨hty, rfl, rfl⟩, rfl, rfl, rfl⟩ := h
  exact ⟨ts, elem, ty, hsome, hexprs, helem, hty, rfl⟩

-- Only what a tuple holds is told by the selector itself, which gets no type then.
theorem yields_index {selector : Expr}
    (h : Yields (expr ctx (.index e selector)) locals store t locals' later) :
    ∃ value middle between, Yields (expr ctx e) locals store value middle between ∧
      ((∃ elems, value.ty = .tuple elems ∧
          Yields (projectFrom value elems selector) middle between t locals' later) ∨
        (∀ elems, value.ty ≠ .tuple elems) ∧ ∃ index ty,
          Yields (expr ctx selector) middle between index locals' later ∧
          value.ty.indexType index.ty = .ok ty ∧ t = .index value index ty) := by
  simp only [expr, yields_bind] at h
  obtain ⟨value, middle, between, hexpr, h⟩ := h
  refine ⟨value, middle, between, hexpr, ?_⟩
  split at h
  · rename_i elems hty
    exact Or.inl ⟨elems, hty, h⟩
  · rename_i hty
    simp only [yields_bind, yields_ofTy, yields_pure] at h
    obtain ⟨index, _, _, hindex, ty, _, _, ⟨htype, rfl, rfl⟩, rfl, rfl, rfl⟩ := h
    exact Or.inr ⟨hty, index, ty, hindex, htype, rfl⟩

theorem yields_slice {a b c : Expr}
    (h : Yields (expr ctx (.slice a b c)) locals store t locals' later) :
    ∃ start middle between stop middle' between' step,
      Yields (expr ctx a) locals store start middle between ∧
      Yields (expr ctx b) middle between stop middle' between' ∧
      Yields (expr ctx c) middle' between' step locals' later ∧
      t = .slice start stop step (.slice start.ty stop.ty step.ty) := by
  simp only [expr, yields_bind, yields_pure] at h
  obtain ⟨start, middle, between, hstart, stop, middle', between', hstop, step, _, _, hstep, rfl,
    rfl, rfl⟩ := h
  exact ⟨start, middle, between, stop, middle', between', step, hstart, hstop, hstep, rfl⟩

theorem yields_attribute (h : Yields (expr ctx (.attribute e name)) locals store t locals' later) :
    ∃ value ty, Yields (expr ctx e) locals store value locals' later ∧
      Yields (fieldType value.ty name) locals' later ty locals' later ∧
      t = .attribute value name ty := by
  simp only [expr, yields_bind, yields_pure] at h
  obtain ⟨value, _, _, hexpr, ty, _, _, hfield, rfl, rfl, rfl⟩ := h
  obtain ⟨-, rfl, rfl⟩ := yields_fieldType hfield
  exact ⟨value, ty, hexpr, hfield, rfl⟩

theorem yields_prim {op : Prim}
    (h : Yields (expr ctx (.prim op es)) locals store t locals' later) :
    ∃ ts middle between, Yields (exprs ctx es) locals store ts middle between ∧
      Yields (applyPrim ctx op ts) middle between t locals' later := by
  simpa only [expr, yields_bind] using h

theorem yields_closure (h : Yields (expr ctx (.closure name es)) locals store t locals' later) :
    ∃ ts, store.funcs.contains name = true ∧ Yields (exprs ctx es) locals store ts locals' later ∧
      t = .closure name ts (.closure ⟨name, typesOf ts⟩) := by
  unfold expr at h
  obtain ⟨hname, h⟩ := yields_requireFunc.mp h
  simp only [yields_bind, yields_pure] at h
  obtain ⟨ts, _, _, hexprs, rfl, rfl, rfl⟩ := h
  exact ⟨ts, hname, hexprs, rfl⟩

theorem yields_invoke (h : Yields (expr ctx (.invoke f es)) locals store t locals' later) :
    ∃ callee middle between ts middle' between' ty,
      Yields (expr ctx f) locals store callee middle between ∧ callee.ty.isCallable = true ∧
      Yields (exprs ctx es) middle between ts middle' between' ∧
      Yields (liftM (ctx.invoke callee.ty (typesOf ts))) middle' between' ty locals' later ∧
      t = .invoke callee ts ty := by
  simp only [expr, yields_bind, yields_requireCallable, yields_pure] at h
  obtain ⟨callee, middle, between, hexpr, _, _, _, ⟨hcallable, rfl, rfl, rfl⟩, ts, middle', between',
    hexprs, ty, _, _, hcall, rfl, rfl, rfl⟩ := h
  exact ⟨callee, middle, between, ts, middle', between', ty, hexpr, hcallable, hexprs, hcall, rfl⟩

-- The axis of an adverb is looked at first, and then what is called is typed.
theorem yields_map : Yields (expr ctx (.map f es operand)) locals store t locals' later ↔
    ∃ given callee middle between ts middle' between', givenAxis operand = some given ∧
      Yields (expr ctx f) locals store callee middle between ∧ callee.ty.isCallable = true ∧
      Yields (exprs ctx es) middle between ts middle' between' ∧
      Yields (applyMap ctx callee ts given) middle' between' t locals' later := by
  simp only [expr, yields_bind, yields_constAxis, yields_requireCallable]
  constructor
  · rintro ⟨given, _, _, ⟨hgiven, rfl, rfl⟩, callee, middle, between, hf, _, _, _,
      ⟨hcallable, rfl, rfl, rfl⟩, ts, middle', between', hes, happly⟩
    exact ⟨given, callee, middle, between, ts, middle', between', hgiven, hf, hcallable, hes,
      happly⟩
  · rintro ⟨given, callee, middle, between, ts, middle', between', hgiven, hf, hcallable, hes,
      happly⟩
    exact ⟨given, _, _, ⟨hgiven, rfl, rfl⟩, callee, middle, between, hf, _, _, _,
      ⟨hcallable, rfl, rfl, rfl⟩, ts, middle', between', hes, happly⟩

theorem yields_fold {kind : Fold} {combiner : Option Expr} :
    Yields (expr ctx (.fold kind f [e] operand none combiner)) locals store t locals' later ↔
      ∃ given callee middle between c middle' between' arg last final,
        givenAxis operand = some given ∧
        Yields (expr ctx f) locals store callee middle between ∧ callee.ty.isCallable = true ∧
        Yields (optionalCallee ctx combiner) middle between c middle' between' ∧
        Yields (expr ctx e) middle' between' arg last final ∧
        Yields (applyFold ctx kind callee c arg given) last final t locals' later := by
  simp only [expr, yields_bind, yields_constAxis, yields_requireCallable,
    Option.isSome_none, Bool.false_eq_true, if_false]
  constructor
  · rintro ⟨given, _, _, ⟨hgiven, rfl, rfl⟩, callee, middle, between, hf, _, _, _,
      ⟨hcallable, rfl, rfl, rfl⟩, c, middle', between', hc, arg, last, final, harg, happly⟩
    exact ⟨given, callee, middle, between, c, middle', between', arg, last, final, hgiven, hf,
      hcallable, hc, harg, happly⟩
  · rintro ⟨given, callee, middle, between, c, middle', between', arg, last, final, hgiven, hf,
      hcallable, hc, harg, happly⟩
    exact ⟨given, _, _, ⟨hgiven, rfl, rfl⟩, callee, middle, between, hf, _, _, _,
      ⟨hcallable, rfl, rfl, rfl⟩, c, middle', between', hc, arg, last, final, harg, happly⟩

-- Anything else cannot be folded.
theorem fold_of_yields {kind : Fold} {init combiner : Option Expr}
    (h : Yields (expr ctx (.fold kind f es operand init combiner)) locals store t locals' later) :
    init = none ∧ ∃ e, es = [e] := by
  unfold expr at h
  cases init with
  | some init => exact (yields_throw h).elim
  | none =>
      refine ⟨rfl, ?_⟩
      rcases es with _ | ⟨e, _ | ⟨_, _⟩⟩
      · exact (yields_throw h).elim
      · exact ⟨e, rfl⟩
      · exact (yields_throw h).elim

theorem yields_allPairs {a b : Expr} :
    Yields (expr ctx (.allPairs f [a, b] operand)) locals store t locals' later ↔
      ∃ given callee middle between lhs middle' between' rhs last final,
        givenAxis operand = some given ∧
        Yields (expr ctx f) locals store callee middle between ∧ callee.ty.isCallable = true ∧
        Yields (expr ctx a) middle between lhs middle' between' ∧
        Yields (expr ctx b) middle' between' rhs last final ∧
        Yields (applyAllPairs ctx callee lhs rhs given) last final t locals' later := by
  simp only [expr, yields_bind, yields_constAxis, yields_requireCallable]
  constructor
  · rintro ⟨given, _, _, ⟨hgiven, rfl, rfl⟩, callee, middle, between, hf, _, _, _,
      ⟨hcallable, rfl, rfl, rfl⟩, lhs, middle', between', ha, rhs, last, final, hb, happly⟩
    exact ⟨given, callee, middle, between, lhs, middle', between', rhs, last, final, hgiven, hf,
      hcallable, ha, hb, happly⟩
  · rintro ⟨given, callee, middle, between, lhs, middle', between', rhs, last, final, hgiven, hf,
      hcallable, ha, hb, happly⟩
    exact ⟨given, _, _, ⟨hgiven, rfl, rfl⟩, callee, middle, between, hf, _, _, _,
      ⟨hcallable, rfl, rfl, rfl⟩, lhs, middle', between', ha, rhs, last, final, hb, happly⟩

theorem pair_of_yields
    (h : Yields (expr ctx (.allPairs f es operand)) locals store t locals' later) :
    ∃ a b, es = [a, b] := by
  unfold expr at h
  rcases es with _ | ⟨a, _ | ⟨b, _ | ⟨_, _⟩⟩⟩
  · exact (yields_throw h).elim
  · exact (yields_throw h).elim
  · exact ⟨a, b, rfl⟩
  · exact (yields_throw h).elim

theorem yields_exprs_nil (h : Yields (exprs ctx []) locals store ts locals' later) :
    ts = [] ∧ locals = locals' ∧ store = later := by
  simp only [exprs, yields_pure] at h
  obtain ⟨rfl, rfl, rfl⟩ := h
  exact ⟨rfl, rfl, rfl⟩

theorem yields_exprs_cons (h : Yields (exprs ctx (e :: es)) locals store ts locals' later) :
    ∃ first middle between rest, Yields (expr ctx e) locals store first middle between ∧
      Yields (exprs ctx es) middle between rest locals' later ∧ ts = first :: rest := by
  simp only [exprs, yields_bind, yields_pure] at h
  obtain ⟨first, middle, between, hfirst, rest, _, _, hrest, rfl, rfl, rfl⟩ := h
  exact ⟨first, middle, between, rest, hfirst, hrest, rfl⟩

theorem yields_optionalCallee_none {c : Option TypedExpr}
    (h : Yields (optionalCallee ctx none) locals store c locals' later) :
    c = none ∧ locals = locals' ∧ store = later := by
  simp only [optionalCallee, yields_pure] at h
  obtain ⟨rfl, rfl, rfl⟩ := h
  exact ⟨rfl, rfl, rfl⟩

theorem yields_optionalCallee_some {c : Option TypedExpr}
    (h : Yields (optionalCallee ctx (some f)) locals store c locals' later) :
    ∃ callee, Yields (expr ctx f) locals store callee locals' later ∧
      callee.ty.isCallable = true ∧ c = some callee := by
  simp only [optionalCallee, yields_bind, yields_requireCallable, yields_pure] at h
  obtain ⟨callee, _, _, hexpr, _, _, _, ⟨hcallable, rfl, rfl, rfl⟩, rfl, rfl, rfl⟩ := h
  exact ⟨callee, hexpr, hcallable, rfl⟩

end Steps

end Annotate

end RankPoly
