import RankPoly.Annotate.Stmt
import RankPoly.Proofs.Lockstep.Expr

namespace RankPoly

namespace Likeness

def merge (c : Correspondence) : Likeness (Merge TypedExpr) where
  rel naming := Merge.Alike naming (TypedExpr.Alike naming c.literal)
  refl := Merge.Alike.refl (TypedExpr.Alike.refl c.literal_refl)
  mono hle h := h.imp hle fun _ _ => .mono hle

def stmt (c : Correspondence) : Likeness TypedStmt where
  rel naming := TypedStmt.Alike naming c.literal
  refl := Stmt.Alike.refl (TypedExpr.Alike.refl c.literal_refl)
  mono hle h := h.imp hle fun _ _ => .mono hle

-- Environments with the same bindings up to names.
def bindings : Likeness (NameMap Ty) where
  rel naming env env' :=
    (∀ m ty, (m, ty) ∈ env → ∃ n, naming m n ∧ (n, ty) ∈ env') ∧
      ∀ n ty, (n, ty) ∈ env' → ∃ m, naming m n ∧ (m, ty) ∈ env
  refl env := ⟨fun m _ h => ⟨m, rfl, h⟩, fun n _ h => ⟨n, rfl, h⟩⟩
  mono hle h := by
    refine ⟨fun m ty hm => ?_, fun n ty hn => ?_⟩
    · obtain ⟨n, hmn, hn⟩ := h.1 m ty hm
      exact ⟨n, hle _ _ hmn, hn⟩
    · obtain ⟨m, hmn, hm⟩ := h.2 n ty hn
      exact ⟨m, hle _ _ hmn, hm⟩

end Likeness

namespace Comparison

open Annotate (Context)

variable {W : Comparison} {naming : Naming} {ctx ctx' : Context}

theorem Linked.bindings {locals locals' : Locals} {store store' : Store}
    (h : W.Linked naming locals store locals' store') :
    Likeness.bindings.rel naming locals.env locals'.env := by
  refine ⟨fun m ty hm => ?_, fun n ty hn => ?_⟩
  · have hfound := NameMap.find?_of_mem h.sorted.1.nodup hm
    obtain ⟨n, hmn⟩ := h.env.left (NameMap.mem_keys_iff.mpr ⟨ty, hfound⟩)
    refine ⟨n, hmn, NameMap.mem_of_find? ?_⟩
    rw [← optionRel_eq_iff.mp (h.env.lookup hmn), hfound]
  · have hfound := NameMap.find?_of_mem h.sorted.2.nodup hn
    obtain ⟨m, hmn⟩ := h.env.right (NameMap.mem_keys_iff.mpr ⟨ty, hfound⟩)
    refine ⟨m, hmn, NameMap.mem_of_find? ?_⟩
    rw [optionRel_eq_iff.mp (h.env.lookup hmn), hfound]

theorem Linked.extendedBy_eq {before before' : NameMap Ty} {locals locals' : Locals}
    {store store' : Store} (hbefore : Likeness.bindings.rel naming before before')
    (h : W.Linked naming locals store locals' store') :
    before.extendedBy locals.env = before'.extendedBy locals'.env := by
  rw [Bool.eq_iff_iff]
  simp only [NameMap.extendedBy, List.all_eq_true, decide_eq_true_eq, Prod.forall]
  refine ⟨fun hall n ty hn => ?_, fun hall m ty hm => ?_⟩
  · obtain ⟨m, hmn, hm⟩ := hbefore.2 n ty hn
    rw [← optionRel_eq_iff.mp (h.env.lookup hmn)]
    exact hall m ty hm
  · obtain ⟨n, hmn, hn⟩ := hbefore.1 m ty hm
    rw [optionRel_eq_iff.mp (h.env.lookup hmn)]
    exact hall n ty hn

theorem Sim.condition (hW : W.Respects ctx ctx') {x y : Expr}
    (h : x.Alike W.naming W.literal y) :
    W.Sim naming W.typed (Annotate.condition ctx x) (Annotate.condition ctx' y) := by
  unfold Annotate.condition
  refine .bind hW (.expr hW naming x y h) ?_
  intro _ _ x y hxy
  rw [hxy.ty_eq]
  refine .bind hW (.require hW _ _) ?_
  intro _ hle _ _ _
  exact .value hW (hxy.mono hle)

theorem Sim.storeInto (hW : W.Respects ctx ctx') {x y i j : TypedExpr} (stored : Ty)
    (h : x.Alike naming W.literal y) (hi : i.Alike naming W.literal j) :
    W.Sim naming W.typed (Annotate.storeInto x i stored) (Annotate.storeInto y j stored) := by
  unfold Annotate.storeInto
  rw [h.ty_eq, hi.ty_eq]
  refine .bind hW (.ofTy hW _) ?_
  rintro _ hle₁ slot _ rfl
  refine .bind hW (.require hW _ _) fun hle₂ _ _ _ => ?_
  refine .bind hW (.ofTy hW _) fun hle₃ _ _ _ => ?_
  have hle := (hle₁.trans hle₂).trans hle₃
  exact .value hW (.index (h.mono hle) (hi.mono hle))

mutual

theorem Sim.target (hW : W.Respects ctx ctx') (naming : Naming) (rhs : Ty) :
    ∀ x y : Expr, x.Alike W.naming W.literal y →
      W.Sim naming W.typed (Annotate.target ctx x rhs) (Annotate.target ctx' y rhs)
  | .var m, _, .var rfl => by
      unfold Annotate.target
      refine .bind hW (.localFor hW m) ?_
      intro _ _ m n hmn
      refine .bind hW (.widen hW hmn rhs) ?_
      rintro _ hle ty _ rfl
      exact .value hW (.var (hle _ _ hmn))
  | .tuple xs, .tuple ys, .tuple h => by
      unfold Annotate.target
      rw [h.length_eq]
      split
      · refine .bind hW (.require hW _ _) fun _ _ _ _ => ?_
        refine .bind hW (targets hW _ xs ys h _) ?_
        intro _ _ xs ys hxs
        rw [TypedExpr.Alike.typesOf_eq hxs]
        exact .value hW (.tuple hxs)
      · exact .failure hW (.refl _)
  | .index x i, .index y j, .index h hi => by
      unfold Annotate.target
      refine .bind hW (.expr hW naming x y h) ?_
      intro _ _ x y hxy
      rw [hxy.ty_eq]
      refine .bind hW (.require hW _ _) fun hle₁ _ _ _ => ?_
      refine .bind hW (.expr hW _ i j hi) ?_
      intro _ hle₂ i j hij
      exact .storeInto hW rhs (hxy.mono (hle₁.trans hle₂)) hij
  | .attribute x name, .attribute y _, .attribute h => by
      unfold Annotate.target
      refine .bind hW (.expr hW naming x y h) ?_
      intro _ _ x y hxy
      rw [hxy.ty_eq]
      refine .bind hW (.fieldType hW _ _) ?_
      rintro _ hle₁ field _ rfl
      refine .bind hW (.ofTy hW _) fun hle₂ _ _ _ => ?_
      exact .value hW (.attribute (hxy.mono (hle₁.trans hle₂)))
  | .const _, _, h@(.const _) => .failure hW (.target h)
  | .array _, _, h@(.array _) => .failure hW (.target h)
  | .slice .., _, h@(.slice ..) => .failure hW (.target h)
  | .prim .., _, h@(.prim _) => .failure hW (.target h)
  | .closure .., _, h@(.closure _) => .failure hW (.target h)
  | .invoke .., _, h@(.invoke ..) => .failure hW (.target h)
  | .map .., _, h@(.map ..) => .failure hW (.target h)
  | .fold .., _, h@(.fold ..) => .failure hW (.target h)
  | .allPairs .., _, h@(.allPairs ..) => .failure hW (.target h)
  termination_by structural x => x

theorem Sim.targets (hW : W.Respects ctx ctx') (naming : Naming) :
    ∀ xs ys : List Expr, List.Forall₂ (Expr.Alike W.naming W.literal) xs ys → ∀ tys : List Ty,
      W.Sim naming (.list W.typed) (Annotate.targets ctx xs tys) (Annotate.targets ctx' ys tys)
  | [], _, .nil, tys => by
      unfold Annotate.targets
      exact .value hW .nil
  | x :: xs, y :: ys, .cons hx hxs, tys => by
      cases tys with
      | nil =>
          unfold Annotate.targets
          exact .value hW .nil
      | cons ty tys =>
          unfold Annotate.targets
          refine .bind hW (target hW naming ty x y hx) ?_
          intro _ _ x y hxy
          refine .bind hW (targets hW _ xs ys hxs tys) ?_
          intro _ hle xs ys hxs
          exact .value hW (.cons (hxy.mono hle) hxs)
  termination_by structural xs => xs

end

theorem Sim.branchMerges (hW : W.Respects ctx ctx') {naming : Naming} :
    ∀ {xs ys : List (Merge Expr)},
      List.Forall₂ (Merge.Alike W.naming (Expr.Alike W.naming W.literal)) xs ys →
      W.Sim naming (.list (.merge W.toCorrespondence)) (Annotate.branchMerges ctx xs)
        (Annotate.branchMerges ctx' ys)
  | _, _, .nil => .value hW .nil
  | x :: xs, y :: ys, .cons hx hxs => by
      unfold Annotate.branchMerges
      refine .bind hW (.expr hW _ _ _ hx.left) ?_
      intro _ _ left left' hleft
      refine .bind hW (.expr hW _ _ _ hx.right) ?_
      intro _ hle₁ right right' hright
      rw [hleft.ty_eq, hright.ty_eq, ← hx.var]
      refine .bind hW (.localFor hW x.var) ?_
      intro _ hle₂ m n hmn
      refine .bind hW (.ofTy hW _) ?_
      rintro _ hle₃ both _ rfl
      refine .bind hW (.widen hW (hle₃ _ _ hmn) both) fun hle₄ _ _ _ => ?_
      refine .bind hW (branchMerges hW hxs) ?_
      intro _ hle₅ rest rest' hrest
      have hle := ((hle₂.trans hle₃).trans hle₄).trans hle₅
      refine .value hW (.cons ⟨?_, hleft.mono (hle₁.trans hle), hright.mono hle⟩ hrest)
      exact ((hle₃.trans hle₄).trans hle₅) _ _ hmn

theorem Sim.enterLoop (hW : W.Respects ctx ctx') {naming : Naming} :
    ∀ {xs ys : List (Merge Expr)},
      List.Forall₂ (Merge.Alike W.naming (Expr.Alike W.naming W.literal)) xs ys →
      W.Sim naming (.list (.pair .name W.typed)) (Annotate.enterLoop ctx xs)
        (Annotate.enterLoop ctx' ys)
  | _, _, .nil => .value hW .nil
  | x :: xs, y :: ys, .cons hx hxs => by
      unfold Annotate.enterLoop
      refine .bind hW (.expr hW _ _ _ hx.left) ?_
      intro _ _ left left' hleft
      rw [hleft.ty_eq, ← hx.var]
      refine .bind hW (.localFor hW x.var) ?_
      intro _ hle₁ m n hmn
      refine .bind hW (.widen hW hmn _) fun hle₂ _ _ _ => ?_
      refine .bind hW (enterLoop hW hxs) ?_
      intro _ hle₃ rest rest' hrest
      have hle := hle₂.trans hle₃
      exact .value hW (.cons ⟨hle _ _ hmn, hleft.mono (hle₁.trans hle)⟩ hrest)

theorem Sim.closeLoop (hW : W.Respects ctx ctx') {naming : Naming} :
    ∀ {xs ys : List (Merge Expr)} {entries entries' : List (String × TypedExpr)},
      List.Forall₂ (Merge.Alike W.naming (Expr.Alike W.naming W.literal)) xs ys →
      (Likeness.list (.pair .name W.typed)).rel naming entries entries' →
      W.Sim naming (.list (.merge W.toCorrespondence)) (Annotate.closeLoop ctx xs entries)
        (Annotate.closeLoop ctx' ys entries')
  | _, _, _, _, .nil, _ => .value hW .nil
  | _ :: _, _ :: _, _, _, .cons _ _, .nil => .value hW .nil
  | x :: xs, y :: ys, (m, left) :: entries, (n, left') :: entries', .cons hx hxs,
      .cons ⟨hmn, hleft⟩ hentries => by
      unfold Annotate.closeLoop
      refine .bind hW (.expr hW _ _ _ hx.right) ?_
      intro _ hle₁ right right' hright
      rw [hright.ty_eq]
      refine .bind hW (.widen hW (hle₁ _ _ hmn) _) fun hle₂ _ _ _ => ?_
      have hle := hle₁.trans hle₂
      refine .bind hW (closeLoop hW hxs ((Likeness.list (.pair .name W.typed)).mono hle hentries)) ?_
      intro _ hle₃ rest rest' hrest
      refine .value hW (.cons ⟨?_, hleft.mono (hle.trans hle₃), ?_⟩ hrest)
      · exact (hle.trans hle₃) _ _ hmn
      · exact hright.mono (hle₂.trans hle₃)

theorem Sim.loopPass (hW : W.Respects ctx ctx') {c d : Expr}
    {body body' : Annotate (List TypedStmt)} {xs ys : List (Merge Expr)}
    (hc : c.Alike W.naming W.literal d)
    (hbody : ∀ later, W.Sim later (.list (.stmt W.toCorrespondence)) body body')
    (h : List.Forall₂ (Merge.Alike W.naming (Expr.Alike W.naming W.literal)) xs ys) :
    W.Sim naming (.pair (.stmt W.toCorrespondence) (.eq Bool)) (Annotate.loopPass ctx c body xs)
      (Annotate.loopPass ctx' d body' ys) := by
  unfold Annotate.loopPass
  refine .bind hW (.enterLoop hW h) ?_
  intro _ _ entries entries' hentries
  refine .get_bind (.on .bindings Locals.env) (fun _ => Linked.bindings) ?_
  intro _ hle₁ before before' hbefore
  refine .bind hW (.condition hW hc) ?_
  intro _ hle₂ c d hcd
  refine .bind hW (hbody _) ?_
  intro _ hle₃ stmts stmts' hstmts
  have hle := (hle₁.trans hle₂).trans hle₃
  refine .bind hW (.closeLoop hW h ((Likeness.list (.pair .name W.typed)).mono hle hentries)) ?_
  intro _ hle₄ merges merges' hmerges
  refine .get_value hW ?_
  intro _ hle₅ locals store locals' store' hlinked
  refine ⟨.loop ?_ ?_ ?_, Linked.extendedBy_eq ?_ hlinked⟩
  · exact hcd.mono ((hle₃.trans hle₄).trans hle₅)
  · exact (Likeness.list (.stmt W.toCorrespondence)).mono (hle₄.trans hle₅) hstmts
  · exact (Likeness.list (.merge W.toCorrespondence)).mono hle₅ hmerges
  · exact Likeness.bindings.mono (((hle₂.trans hle₃).trans hle₄).trans hle₅) hbefore

theorem Sim.leftStops (hW : W.Respects ctx ctx') {α : Type} {P : Likeness α}
    {error : SpecializeError} {m : Annotate α} (hfree : ∀ store, W.leftFree store) :
    W.Sim naming P (throw error) m := by
  refine ⟨fun _ store => hW.grows_refl store, ?_⟩
  intro later _ locals store locals' store' _ _
  change W.Matched _ _ (m.outcome locals' store')
  rcases m.outcome locals' store' with ⟨f | b, last'⟩
  · exact Or.inl (hfree store)
  · exact hfree store

theorem Sim.rightStops {α : Type} {P : Likeness α} {error : SpecializeError} {m : Annotate α}
    (hgrows : ∀ locals store, W.grows store (m.outcome locals store).2)
    (hfree : ∀ {store store'}, W.agree store store' → W.rightFree store') :
    W.Sim naming P m (throw error) := by
  refine ⟨hgrows, ?_⟩
  intro later _ locals store locals' store' hlinked _
  change W.Matched _ (m.outcome locals store) _
  rcases m.outcome locals store with ⟨e | a, last⟩
  · exact Or.inr (Or.inl (hfree hlinked.agree))
  · exact hfree hlinked.agree

theorem Respects.grows_settle (hW : W.Respects ctx ctx') {pass : Annotate (TypedStmt × Bool)}
    (hpass : ∀ locals store, W.grows store (pass.outcome locals store).2) (limit left : Nat) :
    ∀ locals store, W.grows store ((Annotate.settle limit pass left).outcome locals store).2 := by
  induction left with
  | zero => exact fun _ store => hW.grows_refl store
  | succ left ih =>
      intro locals store
      have h := hpass locals store
      rw [Annotate.settle, Annotate.outcome_bind]
      generalize pass.outcome locals store = o at h ⊢
      rcases o with ⟨error | ⟨⟨stmt, settled⟩, locals'⟩, later⟩
      · exact h
      · cases settled with
        | true => exact h
        | false => exact hW.grows_trans h (ih locals' later)

-- A run with fewer passes left stops first, if the loop does not settle before.
theorem Sim.settle (hW : W.Respects ctx ctx') {pass pass' : Annotate (TypedStmt × Bool)}
    (hpass : ∀ later, W.Sim later (.pair (.stmt W.toCorrespondence) (.eq Bool)) pass pass')
    (left left' : Nat) (hlt : left < left' → ctx.loopLimit < ctx'.loopLimit)
    (hgt : left' < left → ctx'.loopLimit < ctx.loopLimit) :
    W.Sim naming (.stmt W.toCorrespondence) (Annotate.settle ctx.loopLimit pass left)
      (Annotate.settle ctx'.loopLimit pass' left') := by
  induction left generalizing naming left' with
  | zero =>
      rcases Nat.lt_trichotomy ctx.loopLimit ctx'.loopLimit with h | h | h
      · exact .leftStops hW (hW.limit_lt h)
      · cases left' with
        | zero =>
            rw [h]
            exact .failure hW (.refl _)
        | succ left' => exact .leftStops hW (hW.limit_lt (hlt (Nat.succ_pos left')))
      · cases left' with
        | zero => exact .rightStops (hW.grows_settle (hpass naming).grows _ 0) (hW.limit_gt h)
        | succ left' => exact .leftStops hW (hW.limit_lt (hlt (Nat.succ_pos left')))
  | succ left ih =>
      cases left' with
      | zero =>
          exact .rightStops (hW.grows_settle (hpass naming).grows _ _)
            (hW.limit_gt (hgt (Nat.succ_pos left)))
      | succ left' =>
          unfold Annotate.settle
          refine .bind hW (hpass naming) ?_
          rintro _ _ ⟨stmt, settled⟩ ⟨stmt', _⟩ ⟨hstmt, rfl⟩
          cases settled with
          | true => exact .value hW hstmt
          | false => exact ih left' (fun h => hlt (by omega)) (fun h => hgt (by omega))

mutual

-- Statements that correspond are typed in lockstep, and so are all passes over
-- a loop.
theorem Sim.stmt (hW : W.Respects ctx ctx') (naming : Naming) :
    ∀ x y : Stmt Expr, x.Alike W.naming (Expr.Alike W.naming W.literal) y →
      W.Sim naming (.stmt W.toCorrespondence) (Annotate.stmt ctx x) (Annotate.stmt ctx' y)
  | .assign x v, .assign y w, .assign hx hv => by
      unfold Annotate.stmt
      refine .bind hW (.expr hW naming v w hv) ?_
      intro _ _ v w hvw
      rw [hvw.ty_eq]
      refine .bind hW (.target hW _ _ x y hx) ?_
      intro _ hle x y hxy
      exact .value hW (.assign hxy (hvw.mono hle))
  | .branch c xs xs' ms, .branch d ys ys' ns, .branch hc h h' hm => by
      unfold Annotate.stmt
      refine .bind hW (.condition hW hc) ?_
      intro _ _ c d hcd
      refine .bind hW (block hW _ xs ys h) ?_
      intro _ hle₁ xs ys hxs
      refine .bind hW (block hW _ xs' ys' h') ?_
      intro _ hle₂ xs' ys' hxs'
      refine .bind hW (.branchMerges hW hm) ?_
      intro _ hle₃ ms ns hms
      have hle := hle₂.trans hle₃
      refine .value hW (.branch (hcd.mono (hle₁.trans hle)) ?_ ?_ hms)
      · exact (Likeness.list (.stmt W.toCorrespondence)).mono hle hxs
      · exact (Likeness.list (.stmt W.toCorrespondence)).mono hle₃ hxs'
  | .loop c xs ms, .loop d ys ns, .loop hc h hm => by
      unfold Annotate.stmt
      refine .settle hW (fun _ => .loopPass hW hc (fun later => block hW later xs ys h) hm) _ _ ?_ ?_
      · exact id
      · exact id
  | .ret v, .ret w, .ret hv => by
      unfold Annotate.stmt
      refine .bind hW (.expr hW naming v w hv) ?_
      intro _ _ v w hvw
      rw [hvw.ty_eq]
      refine .bind hW (.returns hW _) fun hle _ _ _ => ?_
      exact .value hW (.ret (hvw.mono hle))
  termination_by structural x => x

theorem Sim.block (hW : W.Respects ctx ctx') (naming : Naming) :
    ∀ xs ys : List (Stmt Expr),
      List.Forall₂ (Stmt.Alike W.naming (Expr.Alike W.naming W.literal)) xs ys →
      W.Sim naming (.list (.stmt W.toCorrespondence)) (Annotate.block ctx xs)
        (Annotate.block ctx' ys)
  | [], _, .nil => .value hW .nil
  | x :: xs, y :: ys, .cons hx hxs => by
      unfold Annotate.block
      refine .bind hW (stmt hW naming x y hx) ?_
      intro _ _ x y hxy
      refine .bind hW (block hW _ xs ys hxs) ?_
      intro _ hle xs ys hxs
      exact .value hW (.cons ((Likeness.stmt W.toCorrespondence).mono hle hxy) hxs)
  termination_by structural xs => xs

end

end Comparison

end RankPoly
