import RankPoly.Proofs.Lockstep.Basic
import Mathlib.SetTheory.Cardinal.Arithmetic

namespace RankPoly

namespace Expr

mutual

-- The same expression about other variables. What it says of attributes and of
-- functions stays.
def renameVars (var : String → String) : Expr → Expr
  | .var name => .var (var name)
  | .const value => .const value
  | .tuple elems => .tuple (renameVarsList var elems)
  | .array elems => .array (renameVarsList var elems)
  | .index value selector => .index (renameVars var value) (renameVars var selector)
  | .slice start stop step =>
    .slice (renameVars var start) (renameVars var stop) (renameVars var step)
  | .attribute value name => .attribute (renameVars var value) name
  | .prim op args => .prim op (renameVarsList var args)
  | .closure func captured => .closure func (renameVarsList var captured)
  | .invoke callee args => .invoke (renameVars var callee) (renameVarsList var args)
  | .map callee args axis =>
    .map (renameVars var callee) (renameVarsList var args) (renameVarsOption var axis)
  | .fold kind callee args axis init combiner =>
    .fold kind (renameVars var callee) (renameVarsList var args) (renameVarsOption var axis)
      (renameVarsOption var init) (renameVarsOption var combiner)
  | .allPairs callee args axis =>
    .allPairs (renameVars var callee) (renameVarsList var args) (renameVarsOption var axis)
  termination_by structural e => e

def renameVarsList (var : String → String) : List Expr → List Expr
  | [] => []
  | e :: es => renameVars var e :: renameVarsList var es
  termination_by structural es => es

def renameVarsOption (var : String → String) : Option Expr → Option Expr
  | none => none
  | some e => some (renameVars var e)
  termination_by structural e => e

end

mutual

-- The variables that an expression reads, or assigns to.
def vars : Expr → List String
  | .var name => [name]
  | .const _ => []
  | .tuple elems | .array elems => varsList elems
  | .index value selector => vars value ++ vars selector
  | .slice start stop step => vars start ++ (vars stop ++ vars step)
  | .attribute value _ => vars value
  | .prim _ args => varsList args
  | .closure _ captured => varsList captured
  | .invoke callee args => vars callee ++ varsList args
  | .map callee args axis => vars callee ++ (varsList args ++ varsOption axis)
  | .fold _ callee args axis init combiner =>
    vars callee ++ (varsList args ++ (varsOption axis ++
      (varsOption init ++ varsOption combiner)))
  | .allPairs callee args axis =>
    vars callee ++ (varsList args ++ varsOption axis)
  termination_by structural e => e

def varsList : List Expr → List String
  | [] => []
  | e :: es => vars e ++ varsList es
  termination_by structural es => es

def varsOption : Option Expr → List String
  | none => []
  | some e => vars e
  termination_by structural e => e

end

end Expr

namespace Merge

def renameVars (var : String → String) (merge : Merge Expr) : Merge Expr where
  var := var merge.var
  left := merge.left.renameVars var
  right := merge.right.renameVars var

def vars (merge : Merge Expr) : List String :=
  merge.var :: (merge.left.vars ++ merge.right.vars)

end Merge

namespace Stmt

mutual

def renameVars (var : String → String) : Stmt Expr → Stmt Expr
  | .assign lhs rhs => .assign (lhs.renameVars var) (rhs.renameVars var)
  | .branch cond onTrue onFalse merges =>
    .branch (cond.renameVars var) (renameVarsBlock var onTrue) (renameVarsBlock var onFalse)
      (merges.map (Merge.renameVars var))
  | .loop cond body merges =>
    .loop (cond.renameVars var) (renameVarsBlock var body) (merges.map (Merge.renameVars var))
  | .ret value => .ret (value.renameVars var)
  termination_by structural s => s

def renameVarsBlock (var : String → String) : List (Stmt Expr) → List (Stmt Expr)
  | [] => []
  | first :: rest => renameVars var first :: renameVarsBlock var rest
  termination_by structural body => body

end

mutual

def vars : Stmt Expr → List String
  | .assign lhs rhs => lhs.vars ++ rhs.vars
  | .branch cond onTrue onFalse merges =>
    cond.vars ++ (varsBlock onTrue ++ (varsBlock onFalse ++
      merges.flatMap Merge.vars))
  | .loop cond body merges =>
    cond.vars ++ (varsBlock body ++ merges.flatMap Merge.vars)
  | .ret value => value.vars
  termination_by structural s => s

def varsBlock : List (Stmt Expr) → List String
  | [] => []
  | first :: rest => vars first ++ varsBlock rest
  termination_by structural body => body

end

end Stmt

-- The same map under other names.
def NameMap.renameKeys {α : Type} (var : String → String) : NameMap α → NameMap α
  | [] => []
  | (key, value) :: rest => (renameKeys var rest).insert (var key) value

namespace Params

def renameVars (var : String → String) (params : Params) : Params where
  positional := params.positional.map var
  defaults := params.defaults.renameKeys var
  varargs := params.varargs.map var

def vars (params : Params) : List String :=
  params.names ++ params.defaults.keys

end Params

namespace Func

-- The same function with other names for its variables.
def renameVars (var : String → String) (func : Func) : Func where
  name := func.name
  params := func.params.renameVars var
  body := Stmt.renameVarsBlock var func.body

def vars (func : Func) : List String :=
  func.params.vars ++ Stmt.varsBlock func.body

end Func

section Alike

variable {naming : Naming} {var : String → String}

namespace Expr

mutual

-- Renaming the variables is seen nowhere but in their names.
theorem alike_renameVars : ∀ e : Expr, (∀ x ∈ e.vars, naming x (var x)) →
    Alike naming Eq e (e.renameVars var)
  | .var name, h => .var (h name List.mem_cons_self)
  | .const _, _ => .const rfl
  | .tuple elems, h => .tuple (alike_renameVarsList elems h)
  | .array elems, h => .array (alike_renameVarsList elems h)
  | .index value selector, h => by
      obtain ⟨hvalue, hselector⟩ := List.forall_mem_append.mp h
      exact .index (alike_renameVars value hvalue) (alike_renameVars selector hselector)
  | .slice start stop step, h => by
      obtain ⟨hstart, h⟩ := List.forall_mem_append.mp h
      obtain ⟨hstop, hstep⟩ := List.forall_mem_append.mp h
      exact .slice (alike_renameVars start hstart) (alike_renameVars stop hstop)
        (alike_renameVars step hstep)
  | .attribute value _, h => .attribute (alike_renameVars value h)
  | .prim _ args, h => .prim (alike_renameVarsList args h)
  | .closure _ captured, h => .closure (alike_renameVarsList captured h)
  | .invoke callee args, h => by
      obtain ⟨hcallee, hargs⟩ := List.forall_mem_append.mp h
      exact .invoke (alike_renameVars callee hcallee) (alike_renameVarsList args hargs)
  | .map callee args axis, h => by
      obtain ⟨hcallee, h⟩ := List.forall_mem_append.mp h
      obtain ⟨hargs, haxis⟩ := List.forall_mem_append.mp h
      exact .map (alike_renameVars callee hcallee) (alike_renameVarsList args hargs)
        (alike_renameVarsOption axis haxis)
  | .fold _ callee args axis init combiner, h => by
      obtain ⟨hcallee, h⟩ := List.forall_mem_append.mp h
      obtain ⟨hargs, h⟩ := List.forall_mem_append.mp h
      obtain ⟨haxis, h⟩ := List.forall_mem_append.mp h
      obtain ⟨hinit, hcombiner⟩ := List.forall_mem_append.mp h
      exact .fold (alike_renameVars callee hcallee) (alike_renameVarsList args hargs)
        (alike_renameVarsOption axis haxis) (alike_renameVarsOption init hinit)
        (alike_renameVarsOption combiner hcombiner)
  | .allPairs callee args axis, h => by
      obtain ⟨hcallee, h⟩ := List.forall_mem_append.mp h
      obtain ⟨hargs, haxis⟩ := List.forall_mem_append.mp h
      exact .allPairs (alike_renameVars callee hcallee) (alike_renameVarsList args hargs)
        (alike_renameVarsOption axis haxis)
  termination_by structural e => e

theorem alike_renameVarsList : ∀ es : List Expr, (∀ x ∈ varsList es, naming x (var x)) →
    List.Forall₂ (Alike naming Eq) es (renameVarsList var es)
  | [], _ => .nil
  | e :: es, h => by
      obtain ⟨he, hes⟩ := List.forall_mem_append.mp h
      exact .cons (alike_renameVars e he) (alike_renameVarsList es hes)
  termination_by structural es => es

theorem alike_renameVarsOption : ∀ e : Option Expr,
    (∀ x ∈ varsOption e, naming x (var x)) →
      Option.Rel (Alike naming Eq) e (renameVarsOption var e)
  | none, _ => .none
  | some e, h => .some (alike_renameVars e h)
  termination_by structural e => e

end

end Expr

theorem Merge.alike_renameVars (merge : Merge Expr)
    (h : ∀ x ∈ merge.vars, naming x (var x)) :
    merge.Alike naming (Expr.Alike naming Eq) (merge.renameVars var) := by
  obtain ⟨hvar, h⟩ := List.forall_mem_cons.mp h
  obtain ⟨hleft, hright⟩ := List.forall_mem_append.mp h
  exact ⟨hvar, Expr.alike_renameVars _ hleft, Expr.alike_renameVars _ hright⟩

theorem Merge.alike_renameVarsList {merges : List (Merge Expr)}
    (h : ∀ x ∈ merges.flatMap Merge.vars, naming x (var x)) :
    List.Forall₂ (Merge.Alike naming (Expr.Alike naming Eq)) merges
      (merges.map (Merge.renameVars var)) := by
  rw [List.forall₂_map_right_iff, List.forall₂_same]
  intro merge hmerge
  apply Merge.alike_renameVars
  intro x hx
  exact h x (List.mem_flatMap.mpr ⟨merge, hmerge, hx⟩)

namespace Stmt

mutual

theorem alike_renameVars : ∀ s : Stmt Expr, (∀ x ∈ s.vars, naming x (var x)) →
    Alike naming (Expr.Alike naming Eq) s (s.renameVars var)
  | .assign lhs rhs, h => by
      obtain ⟨hlhs, hrhs⟩ := List.forall_mem_append.mp h
      exact .assign (Expr.alike_renameVars lhs hlhs) (Expr.alike_renameVars rhs hrhs)
  | .branch cond onTrue onFalse merges, h => by
      obtain ⟨hcond, h⟩ := List.forall_mem_append.mp h
      obtain ⟨htrue, h⟩ := List.forall_mem_append.mp h
      obtain ⟨hfalse, hmerges⟩ := List.forall_mem_append.mp h
      exact .branch (Expr.alike_renameVars cond hcond) (alike_renameVarsBlock onTrue htrue)
        (alike_renameVarsBlock onFalse hfalse) (Merge.alike_renameVarsList hmerges)
  | .loop cond body merges, h => by
      obtain ⟨hcond, h⟩ := List.forall_mem_append.mp h
      obtain ⟨hbody, hmerges⟩ := List.forall_mem_append.mp h
      exact .loop (Expr.alike_renameVars cond hcond) (alike_renameVarsBlock body hbody)
        (Merge.alike_renameVarsList hmerges)
  | .ret value, h => .ret (Expr.alike_renameVars value h)
  termination_by structural s => s

theorem alike_renameVarsBlock : ∀ body : List (Stmt Expr),
    (∀ x ∈ varsBlock body, naming x (var x)) →
      List.Forall₂ (Alike naming (Expr.Alike naming Eq)) body (renameVarsBlock var body)
  | [], _ => .nil
  | first :: rest, h => by
      obtain ⟨hfirst, hrest⟩ := List.forall_mem_append.mp h
      exact .cons (alike_renameVars first hfirst) (alike_renameVarsBlock rest hrest)
  termination_by structural body => body

end

end Stmt

end Alike

namespace NameMap

variable {α : Type} {map : NameMap α} {var : String → String}

theorem mem_keys_renameKeys {name : String} :
    name ∈ (map.renameKeys var).keys ↔ ∃ key ∈ map.keys, var key = name := by
  induction map with
  | nil => simp [renameKeys, keys]
  | cons entry rest ih =>
      obtain ⟨key, value⟩ := entry
      have hcons : keys ((key, value) :: rest) = key :: keys rest := rfl
      simp only [renameKeys, mem_keys_insert, ih, hcons, List.mem_cons, exists_eq_or_imp]
      rw [eq_comm]

-- Under its new name, a key has the value that it had before. Nothing else has
-- got that name.
theorem find?_renameKeys {g : String → String} (hg : Function.Injective g)
    (hvar : ∀ key ∈ map.keys, g key = var key) (name : String) :
    (map.renameKeys var).find? (g name) = map.find? name := by
  induction map with
  | nil => rfl
  | cons entry rest ih =>
      obtain ⟨key, value⟩ := entry
      obtain ⟨hkey, hrest⟩ := List.forall_mem_cons.mp hvar
      have hrest := ih hrest
      simp only [renameKeys, find?_insert, find?_cons, ← hkey, hg.eq_iff, hrest]

theorem alike_renameKeys {rel : α → α → Prop} {g : String → String} (hrel : ∀ a, rel a a)
    (hg : Function.Injective g) (hvar : ∀ key ∈ map.keys, g key = var key) :
    map.Alike (fun m n => g m = n) rel (map.renameKeys var) where
  lookup := by
    rintro name _ rfl
    rw [find?_renameKeys hg hvar]
    cases map.find? name with
    | none => exact .none
    | some value => exact .some (hrel value)
  left := fun _ => ⟨_, rfl⟩
  right := by
    intro name hname
    obtain ⟨key, hkey, heq⟩ := mem_keys_renameKeys.mp hname
    exact ⟨key, (hvar key hkey).trans heq⟩

end NameMap

section Renaming

variable {var : String → String} {g : String ↪ String}

theorem Params.alike_renameVars {params : Params} (h : ∀ x ∈ params.vars, g x = var x) :
    params.Alike (Correspondence.renamed g).naming Eq (params.renameVars var) := by
  obtain ⟨hnames, hdefaults⟩ := List.forall_mem_append.mp h
  obtain ⟨hpositional, hvarargs⟩ := List.forall_mem_append.mp hnames
  refine ⟨?_, NameMap.alike_renameKeys (fun _ => rfl) g.injective hdefaults, ?_⟩
  · have hmap : List.Forall₂ (fun m n => g m = var n) params.positional params.positional :=
      List.forall₂_same.mpr hpositional
    exact List.forall₂_map_right_iff.mpr hmap
  · cases hrest : params.varargs with
    | none => simp only [renameVars, hrest]; exact .none
    | some name =>
        have hname : g name = var name := hvarargs name (by simp [hrest])
        simp only [renameVars, hrest]
        exact .some hname

theorem Func.alike_renameVars {func : Func} (h : ∀ x ∈ func.vars, g x = var x) :
    func.Alike (Correspondence.renamed g).naming Eq (func.renameVars var) := by
  obtain ⟨hparams, hbody⟩ := List.forall_mem_append.mp h
  exact ⟨rfl, Params.alike_renameVars hparams, Stmt.alike_renameVarsBlock _ hbody⟩

-- A renaming of some variables that keeps them apart is part of one that keeps all
-- variables apart.
theorem exists_renaming_all {names : List String} (h : Set.InjOn var {x | x ∈ names}) :
    ∃ g : String ↪ String, ∀ x ∈ names, g x = var x := by
  have hinfinite : Infinite String :=
    Infinite.of_injective String.ofList fun _ _ => String.ofList_inj.mp
  have hfew : Cardinal.mk {x | x ∈ names} < Cardinal.mk String :=
    lt_of_lt_of_le (Cardinal.lt_aleph0_iff_finite.mpr (List.finite_toSet names))
      (Cardinal.aleph0_le_mk String)
  let part : {x | x ∈ names} ↪ String :=
    ⟨fun x => var x, fun x y hxy => Subtype.ext (h x.2 y.2 hxy)⟩
  obtain ⟨g, hg⟩ := Cardinal.extend_function_of_lt part hfew ⟨Equiv.refl String⟩
  exact ⟨g.toEmbedding, fun x hx => hg ⟨x, hx⟩⟩

end Renaming

end RankPoly
