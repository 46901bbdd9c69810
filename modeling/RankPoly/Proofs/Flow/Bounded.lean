import RankPoly.Proofs.Flow.Regime
import RankPoly.Proofs.Flow.Tree

namespace RankPoly

open Ty (AllParts)

-- The type that is known of a variable is related to the given one.
def NameMap.Bounds (rel : Ty → Ty → Prop) (env : NameMap Ty) (name : String) (ty : Ty) : Prop :=
  ∃ bound, env.find? name = some bound ∧ rel ty bound

-- All variables in an expression are known, with types related to those that
-- they have there.
def TypedExpr.Bounded (rel : Ty → Ty → Prop) (env : NameMap Ty) (t : TypedExpr) : Prop :=
  ∀ ⦃name ty⦄, (TypedExpr.var name ty).Within t → env.Bounds rel name ty

-- A value of some type is assigned. Where it is taken apart, each variable has a
-- type related to that of its part. An element or a field is stored as what it
-- was before.
inductive TypedExpr.Takes (rel : Ty → Ty → Prop) : TypedExpr → Ty → Prop where
  | var {name : String} {ty bound : Ty} : rel ty bound → Takes rel (.var name bound) ty
  | tuple {ts : List TypedExpr} {tys : List Ty} {ty : Ty} : List.Forall₂ (Takes rel) ts tys →
      Takes rel (.tuple ts ty) (.tuple tys)
  | index {value selector : TypedExpr} {slot ty : Ty} : Takes rel (.index value selector slot) ty
  | attribute {value : TypedExpr} {name : String} {field ty : Ty} :
      Takes rel (.attribute value name field) ty

-- Both values of a merge have types related to that of its variable.
def Merge.Bounded (rel : Ty → Ty → Prop) (env : NameMap Ty) (merge : Merge TypedExpr) : Prop :=
  env.Bounds rel merge.var merge.left.ty ∧ env.Bounds rel merge.var merge.right.ty

-- What is known of the variables of a statement, and of what is returned, covers
-- all that flows there in the statement. The statements inside of it are left to
-- themselves.
structure Stmt.Bounded (rel : Ty → Ty → Prop) (env : NameMap Ty) (returnType : Option Ty)
    (s : TypedStmt) : Prop where
  vars : ∀ t ∈ s.exprs, t.Bounded rel env
  assigned : ∀ {target value}, s = .assign target value → target.Takes rel value.ty
  merged : ∀ merge ∈ s.merges, merge.Bounded rel env
  returned : ∀ {value}, s = .ret value → ∃ bound ∈ returnType, rel value.ty bound

-- All variables in an expression have the types that are known of them.
def TypedExpr.Rests (env : NameMap Ty) (t : TypedExpr) : Prop :=
  ∀ ⦃name ty⦄, (TypedExpr.var name ty).Within t → env.find? name = some ty

-- The types that are known of variables are not lost, but may be widened.
def NameMap.Widens (env env' : NameMap Ty) : Prop :=
  ∀ ⦃name ty⦄, env.find? name = some ty → env'.Bounds Ty.Below name ty

-- A type lies between what is known of a variable at two times, the first of which
-- may be too early for anything to be known.
structure NameMap.Between (env env' : NameMap Ty) (name : String) (ty : Ty) : Prop where
  above : ∀ known, env.find? name = some known → known.Below ty
  below : env'.Bounds Ty.Below name ty

namespace NameMap.Widens

variable {env env' : NameMap Ty}

theorem refl (env : NameMap Ty) : env.Widens env :=
  fun _ _ h => ⟨_, h, Ty.below_refl _⟩

theorem bounds (h : env.Widens env') {name : String} {ty : Ty} (hty : env.Bounds Ty.Below name ty) :
    env'.Bounds Ty.Below name ty := by
  obtain ⟨bound, hfind, hbelow⟩ := hty
  obtain ⟨bound', hfind', hbelow'⟩ := h hfind
  exact ⟨bound', hfind', hbelow.trans hbelow'⟩

theorem trans {env'' : NameMap Ty} (h : env.Widens env') (h' : env'.Widens env'') :
    env.Widens env'' :=
  fun _ _ hfind => h'.bounds (h hfind)

theorem merge (h : env.Widens env') {merge : Merge TypedExpr} (hm : merge.Bounded Ty.Below env) :
    merge.Bounded Ty.Below env' :=
  ⟨h.bounds hm.1, h.bounds hm.2⟩

end NameMap.Widens

-- What lies between two times lies also between an earlier and a later one.
theorem NameMap.Between.widen {env env' before after : NameMap Ty} {name : String} {ty : Ty}
    (h : env.Between env' name ty) (hbefore : before.Widens env) (hafter : env'.Widens after) :
    before.Between after name ty where
  above known hknown := by
    obtain ⟨bound, hbound, hbelow⟩ := hbefore hknown
    exact hbelow.trans (h.above bound hbound)
  below := hafter.bounds h.below

theorem NameMap.Between.of_find? {env : NameMap Ty} {name : String} {ty : Ty}
    (h : env.find? name = some ty) : env.Between env name ty := by
  refine ⟨fun known hknown => ?_, ty, h, ty.below_refl⟩
  cases hknown.symm.trans h
  exact ty.below_refl

-- What lies between two equal types is no other type.
theorem NameMap.Between.eq {env env' : NameMap Ty} {name : String} {ty known : Ty}
    (h : env.Between env' name ty) (hknown : env.find? name = some known)
    (hknown' : env'.find? name = some known) (hty : AllParts Ty.Ordered ty)
    (hordered : AllParts Ty.Ordered known) : ty = known := by
  obtain ⟨bound, hbound, hbelow⟩ := h.below
  cases hknown'.symm.trans hbound
  exact hbelow.antisymm (h.above known hknown) hty hordered

-- An expression whose nodes have a property, and whose variables have another one.
structure TypedExpr.Made (p : Ty → Prop) (q : String → Ty → Prop) (t : TypedExpr) : Prop where
  nodes : ∀ {node : TypedExpr}, node.Within t → AllParts p node.ty
  vars : ∀ ⦃name ty⦄, (TypedExpr.var name ty).Within t → q name ty

-- The variables are as they are known.
abbrev TypedExpr.Reads (p : Ty → Prop) (env : NameMap Ty) (t : TypedExpr) : Prop :=
  t.Made p fun name ty => env.find? name = some ty

-- The variables are between what they are known as at two times.
abbrev TypedExpr.Between (p : Ty → Prop) (env env' : NameMap Ty) (t : TypedExpr) : Prop :=
  t.Made p (env.Between env')

namespace TypedExpr

variable {p : Ty → Prop} {q q' : String → Ty → Prop} {t : TypedExpr}

theorem within_iff {node : TypedExpr} :
    node.Within t ↔ node = t ∨ ∃ child ∈ t.children, node.Within child := by
  constructor
  · rintro (_ | ⟨hchild, hnode⟩)
    · exact Or.inl rfl
    · exact Or.inr ⟨_, hchild, hnode⟩
  · rintro (rfl | ⟨child, hchild, hnode⟩)
    · exact .self
    · exact .child hchild hnode

namespace Made

theorem ty (h : t.Made p q) : AllParts p t.ty :=
  h.nodes .self

theorem imp (h : t.Made p q) (hq : ∀ name ty, q name ty → q' name ty) : t.Made p q' :=
  ⟨h.nodes, fun name ty hvar => hq name ty (h.vars hvar)⟩

theorem var {name : String} {ty : Ty} (hty : AllParts p ty) (hvar : q name ty) :
    (TypedExpr.var name ty).Made p q where
  nodes := by
    rintro node (_ | ⟨⟨⟩, -⟩)
    exact hty
  vars := by
    rintro other found (_ | ⟨⟨⟩, -⟩)
    exact hvar

-- An expression that is no variable is made of its parts.
theorem of_children (hty : AllParts p t.ty) (h : ∀ child ∈ t.children, child.Made p q)
    (hvar : ∀ name ty, t ≠ .var name ty) : t.Made p q where
  nodes := by
    intro node hnode
    rcases within_iff.mp hnode with rfl | ⟨child, hchild, hnode⟩
    · exact hty
    · exact (h child hchild).nodes hnode
  vars := by
    intro name ty hwithin
    rcases within_iff.mp hwithin with heq | ⟨child, hchild, hwithin⟩
    · exact (hvar name ty heq.symm).elim
    · exact (h child hchild).vars hwithin

end Made

theorem Reads.between {env : NameMap Ty} (h : t.Reads p env) : t.Between p env env :=
  h.imp fun _ _ => .of_find?

theorem Between.widen {env env' before after : NameMap Ty} (h : t.Between p env env')
    (hbefore : before.Widens env) (hafter : env'.Widens after) : t.Between p before after :=
  h.imp fun _ _ hvar => hvar.widen hbefore hafter

end TypedExpr

-- What locals have and return is not lost, but may be widened.
structure Locals.Widens (locals locals' : Locals) : Prop where
  env : locals.env.Widens locals'.env
  returnType : ∀ ty ∈ locals.returnType, ∃ bound ∈ locals'.returnType, ty.Below bound

namespace Locals.Widens

variable {locals middle locals' : Locals}

theorem refl (locals : Locals) : locals.Widens locals :=
  ⟨.refl _, fun ty hty => ⟨ty, hty, ty.below_refl⟩⟩

theorem trans (h : locals.Widens middle) (h' : middle.Widens locals') : locals.Widens locals' where
  env := h.env.trans h'.env
  returnType ty hty := by
    obtain ⟨bound, hbound, hbelow⟩ := h.returnType ty hty
    obtain ⟨bound', hbound', hbelow'⟩ := h'.returnType bound hbound
    exact ⟨bound', hbound', hbelow.trans hbelow'⟩

end Locals.Widens

-- A statement whose nodes have a property, and that flows into the locals.
structure Stmt.Flows (p : Ty → Prop) (locals : Locals) (s : TypedStmt) : Prop where
  nodes : ∀ t ∈ s.exprs, ∀ {node : TypedExpr}, node.Within t → AllParts p node.ty
  bounded : s.Bounded Ty.Below locals.env locals.returnType

theorem Stmt.Flows.widen {p : Ty → Prop} {locals locals' : Locals} {s : TypedStmt}
    (h : s.Flows p locals) (hwidens : locals.Widens locals') : s.Flows p locals' where
  nodes := h.nodes
  bounded :=
    { vars := fun t ht _ _ hvar => hwidens.env.bounds (h.bounded.vars t ht hvar)
      assigned := h.bounded.assigned
      merged := fun merge hmerge => hwidens.env.merge (h.bounded.merged merge hmerge)
      returned := by
        intro value heq
        obtain ⟨bound, hbound, hbelow⟩ := h.bounded.returned heq
        obtain ⟨bound', hbound', hbelow'⟩ := hwidens.returnType bound hbound
        exact ⟨bound', hbound', hbelow.trans hbelow'⟩ }

-- A block of statements that all flow into the locals, at any depth.
def Stmt.BlockFlows (p : Ty → Prop) (locals : Locals) (body : List TypedStmt) : Prop :=
  ∀ s ∈ Stmt.withinBlock body, s.Flows p locals

-- A statement that flows into the later ones of two locals, and whose variables are
-- between what they are known as in the one and in the other.
structure Stmt.Between (p : Ty → Prop) (locals locals' : Locals) (s : TypedStmt) : Prop where
  flows : s.Flows p locals'
  exprs : ∀ t ∈ s.exprs, t.Between p locals.env locals'.env

theorem Stmt.Between.widen {p : Ty → Prop} {locals locals' before after : Locals} {s : TypedStmt}
    (h : s.Between p locals locals') (hbefore : before.Widens locals)
    (hafter : locals'.Widens after) : s.Between p before after where
  flows := h.flows.widen hafter
  exprs t ht := (h.exprs t ht).widen hbefore.env hafter.env

-- What is between in its expressions flows where its values do.
theorem Stmt.Between.of_exprs {p : Ty → Prop} {locals locals' : Locals} {s : TypedStmt}
    (hexprs : ∀ t ∈ s.exprs, t.Between p locals.env locals'.env)
    (hassigned : ∀ {target value}, s = .assign target value → target.Takes Ty.Below value.ty)
    (hmerged : ∀ merge ∈ s.merges, merge.Bounded Ty.Below locals'.env)
    (hreturned : ∀ {value}, s = .ret value →
      ∃ bound ∈ locals'.returnType, value.ty.Below bound) : s.Between p locals locals' where
  flows :=
    { nodes := fun t ht _ hnode => (hexprs t ht).nodes hnode
      bounded :=
        { vars := fun t ht _ _ hvar => ((hexprs t ht).vars hvar).below
          assigned := hassigned
          merged := hmerged
          returned := hreturned } }
  exprs := hexprs

end RankPoly
