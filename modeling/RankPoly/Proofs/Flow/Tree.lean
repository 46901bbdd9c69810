import RankPoly.Proofs.Elaboration.Typing

namespace RankPoly

section Zip

variable {α β : Type} {xs : List α} {ys : List β}

-- What stands behind one of two lists of one length is not paired.
theorem zip_append_left (h : xs.length = ys.length) (rest : List α) :
    (xs ++ rest).zip ys = xs.zip ys := by
  have hzip : (xs ++ rest).zip (ys ++ []) = xs.zip ys ++ rest.zip [] := List.zip_append h
  simpa using hzip

theorem zip_append_right (h : xs.length = ys.length) (rest : List β) :
    xs.zip (ys ++ rest) = xs.zip ys := by
  have hzip : (xs ++ []).zip (ys ++ rest) = xs.zip ys ++ [].zip rest := List.zip_append h
  simpa using hzip

end Zip

namespace TypedExpr

-- The parts of an expression, what it calls last.
def children : TypedExpr → List TypedExpr
  | .var .. | .const .. => []
  | .tuple elems _ | .array elems _ | .prim _ elems _ | .closure _ elems _ => elems
  | .index value selector _ => [value, selector]
  | .project value _ _ | .attribute value _ _ => [value]
  | .slice start stop step _ => [start, stop, step]
  | .invoke callee args _ | .map callee args _ _ => args ++ [callee]
  | .fold _ callee arg _ combiner _ => arg :: callee :: combiner.toList
  | .allPairs callee lhs rhs _ _ => [lhs, rhs, callee]

-- An expression stands in another one, at any depth, or is that one.
inductive Within : TypedExpr → TypedExpr → Prop where
  | self {t : TypedExpr} : Within t t
  | child {node t u : TypedExpr} : t ∈ u.children → Within node t → Within node u

theorem sizeOf_lt_of_mem_children {t : TypedExpr} : ∀ {u : TypedExpr}, t ∈ u.children →
    sizeOf t < sizeOf u
  | .tuple elems _, h | .array elems _, h | .prim _ elems _, h | .closure _ elems _, h => by
      have hlt : sizeOf t < sizeOf elems := List.sizeOf_lt_of_mem h
      simp
      omega
  | .index .., h | .slice .., h | .allPairs .., h => by
      simp only [children, List.mem_cons, List.not_mem_nil, or_false] at h
      rcases h with rfl | rfl | rfl <;> simp <;> omega
  | .project .., h | .attribute .., h => by
      cases List.mem_singleton.mp h
      simp
      omega
  | .invoke callee args _, h | .map callee args _ _, h => by
      rcases List.mem_append.mp h with h | h
      · have hlt : sizeOf t < sizeOf args := List.sizeOf_lt_of_mem h
        simp
        omega
      · cases List.mem_singleton.mp h
        simp
        omega
  | .fold .., h => by
      simp only [children, List.mem_cons, Option.mem_toList] at h
      rcases h with rfl | rfl | rfl <;> simp <;> omega

-- What an expression has if its parts have it, all expressions have.
theorem of_children {motive : TypedExpr → Prop}
    (h : ∀ t, (∀ child ∈ t.children, motive child) → motive t) (t : TypedExpr) : motive t :=
  h t fun child _ => of_children h child
termination_by sizeOf t
decreasing_by exact sizeOf_lt_of_mem_children ‹_›

end TypedExpr

namespace Expr

-- The parts of an expression in the same order. An operator has its wrapper as a
-- last part, which it may be mapped by.
def children : Expr → List Expr
  | .var _ | .const _ => []
  | .tuple elems | .array elems | .closure _ elems => elems
  | .index value selector => [value, selector]
  | .slice start stop step => [start, stop, step]
  | .attribute value _ => [value]
  | .prim op args => args ++ [.closure (Session.wrapperName op) []]
  | .invoke callee args | .map callee args _ | .allPairs callee args _ => args ++ [callee]
  | .fold _ callee args _ _ combiner => args ++ callee :: combiner.toList

-- An expression stands in another one, at any depth, where a typed expression
-- stands in a typed one.
inductive Aligned : Expr → TypedExpr → Expr → TypedExpr → Prop where
  | self {e : Expr} {t : TypedExpr} : Aligned e t e t
  | child {e e' e'' : Expr} {t t' t'' : TypedExpr} : (e', t') ∈ e.children.zip t.children →
      Aligned e' t' e'' t'' → Aligned e t e'' t''

namespace Elaborates

variable {rule : Expr → TypedExpr → Prop} {naming : Naming} {e : Expr} {t : TypedExpr}

private theorem append {es es' : List Expr} {ts ts' : List TypedExpr}
    (h : List.Forall₂ (Elaborates rule naming) es ts)
    (h' : List.Forall₂ (Elaborates rule naming) es' ts') :
    List.Forall₂ (Elaborates rule naming) (es ++ es') (ts ++ ts') :=
  List.rel_append h h'

-- The parts of an expression are elaborated one by one, as far as they are kept.
theorem children (h : e.Elaborates rule naming t) :
    ∃ es, es <+: e.children ∧ List.Forall₂ (Elaborates rule naming) es t.children := by
  cases h with
  | var | const => exact ⟨[], List.nil_prefix, .nil⟩
  | tuple hes | array hes | closure hes => exact ⟨_, List.prefix_rfl, hes⟩
  | prim hes => exact ⟨_, List.prefix_append _ _, hes⟩
  | lift hes _ hcallee =>
      exact ⟨_, List.prefix_rfl, append hes (.cons (.closure .nil hcallee) .nil)⟩
  | index he hi => exact ⟨_, List.prefix_rfl, .cons he (.cons hi .nil)⟩
  | project he => exact ⟨[_], List.prefix_append _ _, .cons he .nil⟩
  | slice ha hb hc => exact ⟨_, List.prefix_rfl, .cons ha (.cons hb (.cons hc .nil))⟩
  | «attribute» he => exact ⟨_, List.prefix_rfl, .cons he .nil⟩
  | invoke hf hes | map hf hes => exact ⟨_, List.prefix_rfl, append hes (.cons hf .nil)⟩
  | fold hf he hcombiner =>
      refine ⟨_, List.prefix_rfl, .cons he (.cons hf ?_)⟩
      cases hcombiner with
      | none => exact .nil
      | some hc => exact .cons hc .nil
  | allPairs hf ha hb => exact ⟨_, List.prefix_rfl, .cons ha (.cons hb (.cons hf .nil))⟩

-- What stands where a node stands is what the node comes from.
theorem aligned {node : TypedExpr} {e' : Expr} (h : e.Elaborates rule naming t)
    (haligned : Aligned e t e' node) : e'.Elaborates rule naming node := by
  induction haligned with
  | self => exact h
  | child hmem _ ih =>
      obtain ⟨es, ⟨rest, hrest⟩, hes⟩ := h.children
      rw [← hrest, zip_append_left hes.length_eq] at hmem
      exact ih (List.forall₂_zip hes hmem)

end Elaborates

end Expr

namespace Stmt

variable {ε : Type}

mutual

-- A statement and all statements in it, at any depth.
def within : Stmt ε → List (Stmt ε)
  | .assign target value => [.assign target value]
  | .branch cond onTrue onFalse merges =>
    .branch cond onTrue onFalse merges :: (withinBlock onTrue ++ withinBlock onFalse)
  | .loop cond body merges => .loop cond body merges :: withinBlock body
  | .ret value => [.ret value]
  termination_by structural s => s

def withinBlock : List (Stmt ε) → List (Stmt ε)
  | [] => []
  | first :: rest => within first ++ withinBlock rest
  termination_by structural b => b

end

theorem withinBlock_append : ∀ body rest : List (Stmt ε),
    withinBlock (body ++ rest) = withinBlock body ++ withinBlock rest
  | [], rest => rfl
  | first :: body, rest => by
      simp [withinBlock, withinBlock_append body rest]

-- The merges behind a statement, those inside of it apart.
def merges : Stmt ε → List (Merge ε)
  | .branch _ _ _ merges | .loop _ _ merges => merges
  | .assign .. | .ret _ => []

-- The expressions of a statement, those of the statements in it apart.
def exprs : Stmt ε → List ε
  | .assign target value => [target, value]
  | .branch cond _ _ merges | .loop cond _ merges =>
    cond :: merges.flatMap fun merge => [merge.left, merge.right]
  | .ret value => [value]

end Stmt

end RankPoly
