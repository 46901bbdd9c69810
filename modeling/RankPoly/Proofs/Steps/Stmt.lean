import RankPoly.Annotate.Stmt
import RankPoly.Proofs.Steps.Expr

namespace RankPoly.Annotate

variable {ctx : Context} {locals locals' : Locals} {store later : Store}

theorem yields_condition {e : Expr} {t : TypedExpr}
    (h : Yields (condition ctx e) locals store t locals' later) :
    Yields (expr ctx e) locals store t locals' later ∧ t.ty.isScalar = true := by
  simp only [condition, yields_bind, yields_require, yields_pure] at h
  obtain ⟨t, _, _, hexpr, _, _, _, ⟨hscalar, rfl, rfl⟩, rfl, rfl, rfl⟩ := h
  exact ⟨hexpr, hscalar⟩

theorem yields_storeInto {value selector t : TypedExpr} {stored : Ty}
    (h : Yields (storeInto value selector stored) locals store t locals' later) :
    ∃ slot, value.ty.indexType selector.ty = .ok slot ∧ t = .index value selector slot ∧
      locals = locals' ∧ store = later := by
  simp only [storeInto, yields_bind, yields_ofTy, yields_require, yields_pure] at h
  obtain ⟨slot, _, _, ⟨hslot, rfl, rfl⟩, _, _, _, ⟨-, rfl, rfl⟩, _, _, _, ⟨-, rfl, rfl⟩, rfl, rfl,
    rfl⟩ := h
  exact ⟨slot, hslot, rfl, rfl, rfl⟩

-- The steps by which a target of each kind has been typed.
section Target

variable {name : String} {value selector : Expr} {parts : List Expr} {rhs : Ty} {t : TypedExpr}

theorem yields_target_var (h : Yields (target ctx (.var name) rhs) locals store t locals' later) :
    ∃ known middle between ty, Yields (localFor name) locals store known middle between ∧
      Yields (widen known rhs) middle between ty locals' later ∧ t = .var known ty := by
  simp only [target, yields_bind, yields_pure] at h
  obtain ⟨known, middle, between, hlocal, ty, _, _, hwiden, rfl, rfl, rfl⟩ := h
  exact ⟨known, middle, between, ty, hlocal, hwiden, rfl⟩

theorem yields_target_tuple
    (h : Yields (target ctx (.tuple parts) rhs) locals store t locals' later) :
    ∃ elems ts, rhs = .tuple elems ∧ elems.length = parts.length ∧
      Yields (targets ctx parts elems) locals store ts locals' later ∧
      t = .tuple ts (.tuple (typesOf ts)) := by
  unfold target at h
  split at h
  · rename_i elems
    simp only [yields_bind, yields_require, yields_pure, decide_eq_true_eq] at h
    obtain ⟨_, _, _, ⟨hlength, rfl, rfl⟩, ts, _, _, htargets, rfl, rfl, rfl⟩ := h
    exact ⟨elems, ts, rfl, hlength, htargets, rfl⟩
  · exact (yields_throw h).elim

theorem yields_target_index
    (h : Yields (target ctx (.index value selector) rhs) locals store t locals' later) :
    ∃ value' middle between selector' middle' between',
      Yields (expr ctx value) locals store value' middle between ∧ value'.ty.isArray = true ∧
      Yields (expr ctx selector) middle between selector' middle' between' ∧
      Yields (storeInto value' selector' rhs) middle' between' t locals' later := by
  simp only [target, yields_bind, yields_require] at h
  obtain ⟨value', middle, between, hvalue, _, _, _, ⟨harray, rfl, rfl⟩, selector', middle', between',
    hselector, hinto⟩ := h
  exact ⟨value', middle, between, selector', middle', between', hvalue, harray, hselector, hinto⟩

theorem yields_target_attribute
    (h : Yields (target ctx (.attribute value name) rhs) locals store t locals' later) :
    ∃ value' field both, Yields (expr ctx value) locals store value' locals' later ∧
      Yields (fieldType value'.ty name) locals' later field locals' later ∧
      field.combine rhs = .ok both ∧ t = .attribute value' name field := by
  simp only [target, yields_bind, yields_ofTy, yields_pure] at h
  obtain ⟨value', _, _, hvalue, field, _, _, hfield, both, _, _, ⟨hboth, rfl, rfl⟩, rfl, rfl,
    rfl⟩ := h
  obtain ⟨-, rfl, rfl⟩ := yields_fieldType hfield
  exact ⟨value', field, both, hvalue, hfield, hboth, rfl⟩

theorem yields_targets_nil {elems : List Ty} {ts : List TypedExpr}
    (h : Yields (targets ctx [] elems) locals store ts locals' later) :
    ts = [] ∧ locals = locals' ∧ store = later := by
  unfold targets at h
  obtain ⟨rfl, rfl, rfl⟩ := yields_pure.mp h
  exact ⟨rfl, rfl, rfl⟩

theorem yields_targets_cons {part : Expr} {elem : Ty} {elems : List Ty} {ts : List TypedExpr}
    (h : Yields (targets ctx (part :: parts) (elem :: elems)) locals store ts locals' later) :
    ∃ first middle between rest, Yields (target ctx part elem) locals store first middle between ∧
      Yields (targets ctx parts elems) middle between rest locals' later ∧ ts = first :: rest := by
  simp only [targets, yields_bind, yields_pure] at h
  obtain ⟨first, middle, between, hfirst, rest, _, _, hrest, rfl, rfl, rfl⟩ := h
  exact ⟨first, middle, between, rest, hfirst, hrest, rfl⟩

end Target

-- The steps by which merges have been typed, one merge after another.
section Merges

variable {merge : Merge Expr} {merges : List (Merge Expr)} {merges' : List (Merge TypedExpr)}
  {entries : List (String × TypedExpr)}

theorem yields_branchMerges_nil
    (h : Yields (branchMerges ctx []) locals store merges' locals' later) :
    merges' = [] ∧ locals = locals' ∧ store = later := by
  simp only [branchMerges, yields_pure] at h
  obtain ⟨rfl, rfl, rfl⟩ := h
  exact ⟨rfl, rfl, rfl⟩

theorem yields_branchMerges_cons
    (h : Yields (branchMerges ctx (merge :: merges)) locals store merges' locals' later) :
    ∃ left locals₁ store₁ right locals₂ store₂ var locals₃ store₃ both widened middle between rest,
      Yields (expr ctx merge.left) locals store left locals₁ store₁ ∧
      Yields (expr ctx merge.right) locals₁ store₁ right locals₂ store₂ ∧
      Yields (localFor merge.var) locals₂ store₂ var locals₃ store₃ ∧
      left.ty.combine right.ty = .ok both ∧
      Yields (widen var both) locals₃ store₃ widened middle between ∧
      Yields (branchMerges ctx merges) middle between rest locals' later ∧
      merges' = { var, left, right } :: rest := by
  simp only [branchMerges, yields_bind, yields_ofTy, yields_pure] at h
  obtain ⟨left, _, _, hleft, right, _, _, hright, var, _, _, hlocal, both, _, _, ⟨hboth, rfl, rfl⟩,
    widened, _, _, hwiden, rest, _, _, hrest, rfl, rfl, rfl⟩ := h
  exact ⟨left, _, _, right, _, _, var, _, _, both, widened, _, _, rest, hleft, hright, hlocal, hboth,
    hwiden, hrest, rfl⟩

theorem yields_enterLoop_nil (h : Yields (enterLoop ctx []) locals store entries locals' later) :
    entries = [] ∧ locals = locals' ∧ store = later := by
  simp only [enterLoop, yields_pure] at h
  obtain ⟨rfl, rfl, rfl⟩ := h
  exact ⟨rfl, rfl, rfl⟩

theorem yields_enterLoop_cons
    (h : Yields (enterLoop ctx (merge :: merges)) locals store entries locals' later) :
    ∃ left locals₁ store₁ var locals₂ store₂ widened middle between rest,
      Yields (expr ctx merge.left) locals store left locals₁ store₁ ∧
      Yields (localFor merge.var) locals₁ store₁ var locals₂ store₂ ∧
      Yields (widen var left.ty) locals₂ store₂ widened middle between ∧
      Yields (enterLoop ctx merges) middle between rest locals' later ∧
      entries = (var, left) :: rest := by
  simp only [enterLoop, yields_bind, yields_pure] at h
  obtain ⟨left, _, _, hleft, var, _, _, hlocal, widened, _, _, hwiden, rest, _, _, hrest, rfl, rfl,
    rfl⟩ := h
  exact ⟨left, _, _, var, _, _, widened, _, _, rest, hleft, hlocal, hwiden, hrest, rfl⟩

theorem yields_closeLoop_nil (h : merges = [] ∨ entries = [])
    (hclose : Yields (closeLoop ctx merges entries) locals store merges' locals' later) :
    merges' = [] ∧ locals = locals' ∧ store = later := by
  unfold closeLoop at hclose
  split at hclose
  · rcases h with h | h <;> cases h
  · obtain ⟨rfl, rfl, rfl⟩ := yields_pure.mp hclose
    exact ⟨rfl, rfl, rfl⟩

theorem yields_closeLoop_cons {var : String} {left : TypedExpr}
    (h : Yields (closeLoop ctx (merge :: merges) ((var, left) :: entries)) locals store merges'
      locals' later) :
    ∃ right locals₁ store₁ widened middle between rest,
      Yields (expr ctx merge.right) locals store right locals₁ store₁ ∧
      Yields (widen var right.ty) locals₁ store₁ widened middle between ∧
      Yields (closeLoop ctx merges entries) middle between rest locals' later ∧
      merges' = { var, left, right } :: rest := by
  simp only [closeLoop, yields_bind, yields_pure] at h
  obtain ⟨right, _, _, hright, widened, _, _, hwiden, rest, _, _, hrest, rfl, rfl, rfl⟩ := h
  exact ⟨right, _, _, widened, _, _, rest, hright, hwiden, hrest, rfl⟩

end Merges

-- Between the values that enter a loop and those that come back, a pass looks at the condition
-- and at the body. What it is settled by is known once the values have entered.
theorem yields_loopPass {cond : Expr} {m : Annotate (List TypedStmt)} {merges : List (Merge Expr)}
    {t : TypedStmt} {settled : Bool}
    (h : Yields (loopPass ctx cond m merges) locals store (t, settled) locals' later) :
    ∃ entries entered between cond' passed start body middle last merges',
      Yields (enterLoop ctx merges) locals store entries entered between ∧
      Yields (condition ctx cond) entered between cond' passed start ∧
      Yields m passed start body middle last ∧
      Yields (closeLoop ctx merges entries) middle last merges' locals' later ∧
      t = .loop cond' body merges' ∧ settled = entered.env.extendedBy locals'.env := by
  simp only [loopPass, yields_bind, yields_get, yields_pure, Prod.mk.injEq] at h
  obtain ⟨entries, entered, between, henter, _, _, _, ⟨rfl, rfl, rfl⟩, cond', passed, start, hcond,
    body, middle, last, hbody, merges', _, _, hclose, _, _, _, ⟨rfl, rfl, rfl⟩, ⟨rfl, rfl⟩, rfl,
    rfl⟩ := h
  exact ⟨entries, entered, between, cond', passed, start, body, middle, last, merges', henter, hcond,
    hbody, hclose, rfl, rfl⟩

-- A pass that does not settle the loop is followed by others.
theorem yields_settle_succ {limit left : Nat} {pass : Annotate (TypedStmt × Bool)} {t : TypedStmt}
    (h : Yields (settle limit pass (left + 1)) locals store t locals' later) :
    Yields pass locals store (t, true) locals' later ∨
      ∃ t' middle between, Yields pass locals store (t', false) middle between ∧
        Yields (settle limit pass left) middle between t locals' later := by
  simp only [settle, yields_bind, Prod.exists] at h
  obtain ⟨t', settled, middle, between, hpass, h⟩ := h
  cases settled with
  | true =>
      obtain ⟨rfl, rfl, rfl⟩ := yields_pure.mp h
      exact Or.inl hpass
  | false => exact Or.inr ⟨t', middle, between, hpass, h⟩

-- The steps by which a statement of each kind has been typed.
section Stmt

variable {t : TypedStmt} {ts : List TypedStmt}

theorem yields_assign {lhs rhs : Expr}
    (h : Yields (stmt ctx (.assign lhs rhs)) locals store t locals' later) :
    ∃ value middle between slot, Yields (expr ctx rhs) locals store value middle between ∧
      Yields (target ctx lhs value.ty) middle between slot locals' later ∧
      t = .assign slot value := by
  simp only [stmt, yields_bind, yields_pure] at h
  obtain ⟨value, middle, between, hvalue, slot, _, _, htarget, rfl, rfl, rfl⟩ := h
  exact ⟨value, middle, between, slot, hvalue, htarget, rfl⟩

theorem yields_branch {cond : Expr} {onTrue onFalse : List (Stmt Expr)} {merges : List (Merge Expr)}
    (h : Yields (stmt ctx (.branch cond onTrue onFalse merges)) locals store t locals' later) :
    ∃ cond' locals₁ store₁ onTrue' locals₂ store₂ onFalse' locals₃ store₃ merges',
      Yields (condition ctx cond) locals store cond' locals₁ store₁ ∧
      Yields (block ctx onTrue) locals₁ store₁ onTrue' locals₂ store₂ ∧
      Yields (block ctx onFalse) locals₂ store₂ onFalse' locals₃ store₃ ∧
      Yields (branchMerges ctx merges) locals₃ store₃ merges' locals' later ∧
      t = .branch cond' onTrue' onFalse' merges' := by
  simp only [stmt, yields_bind, yields_pure] at h
  obtain ⟨cond', _, _, hcond, onTrue', _, _, htrue, onFalse', _, _, hfalse, merges', _, _, hmerges,
    rfl, rfl, rfl⟩ := h
  exact ⟨cond', _, _, onTrue', _, _, onFalse', _, _, merges', hcond, htrue, hfalse, hmerges, rfl⟩

theorem yields_ret {value : Expr}
    (h : Yields (stmt ctx (.ret value)) locals store t locals' later) :
    ∃ value' middle between, Yields (expr ctx value) locals store value' middle between ∧
      Yields (returns value'.ty) middle between () locals' later ∧ t = .ret value' := by
  simp only [stmt, yields_bind, yields_pure] at h
  obtain ⟨value', middle, between, hvalue, _, _, _, hreturns, rfl, rfl, rfl⟩ := h
  exact ⟨value', middle, between, hvalue, hreturns, rfl⟩

theorem yields_block_nil (h : Yields (block ctx []) locals store ts locals' later) :
    ts = [] ∧ locals = locals' ∧ store = later := by
  simp only [block, yields_pure] at h
  obtain ⟨rfl, rfl, rfl⟩ := h
  exact ⟨rfl, rfl, rfl⟩

theorem yields_block_cons {s : Stmt Expr} {rest : List (Stmt Expr)} :
    Yields (block ctx (s :: rest)) locals store ts locals' later ↔
      ∃ first middle between others, Yields (stmt ctx s) locals store first middle between ∧
        Yields (block ctx rest) middle between others locals' later ∧ ts = first :: others := by
  simp only [block, yields_bind, yields_pure]
  constructor
  · rintro ⟨first, middle, between, hfirst, others, _, _, hrest, rfl, rfl, rfl⟩
    exact ⟨first, middle, between, others, hfirst, hrest, rfl⟩
  · rintro ⟨first, middle, between, others, hfirst, hrest, rfl⟩
    exact ⟨first, middle, between, hfirst, others, _, _, hrest, rfl, rfl, rfl⟩

end Stmt

end RankPoly.Annotate
