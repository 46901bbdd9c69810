import RankPoly.Proofs.Elaboration.Func
import RankPoly.Proofs.Flow.Tree
import RankPoly.Proofs.Session.Covers
import RankPoly.Proofs.Ty.Parts

namespace RankPoly

open Annotate (typesOf axisCount elementKind? recordedAxis PairTypes)

-- The requests that a call comes to, one for each closure that it may go to.
def Call.requests? (call : Call) : Option (List Request) :=
  call.callee.members?.map fun members =>
    members.map fun member => ⟨member.func, member.captured ++ call.args⟩

namespace TypedExpr

-- The calls that a node makes, its parts apart. A map that an operator has become
-- calls with the elements of its arguments as the operator takes them, and any
-- other map with what is left of the arguments along its axis, or with all of them
-- if it has none. To fold is to call with what has been folded so far, twice.
def calls (source : Expr) : TypedExpr → Option (List Call)
  | .invoke callee args _ => some [⟨callee.ty, typesOf args⟩]
  | .map callee args axis _ =>
    match source with
    | .prim op _ =>
      ((typesOf args).mapM elementKind?).map fun kinds =>
        [⟨callee.ty, (op.inputs kinds).map Ty.scalar⟩]
    | _ =>
      (Ty.lowerRanks (typesOf args) (axisCount axis)).toOption.map fun nested =>
        [⟨callee.ty, nested⟩]
  | .fold _ callee arg axis combiner _ =>
    (arg.ty.lowerRank (axisCount axis)).toOption.map fun acc =>
      (callee :: combiner.toList).map fun func => ⟨func.ty, [acc, acc]⟩
  | .allPairs callee lhs rhs axis _ =>
    if axis = none ∨ Ty.maxRank [lhs.ty, rhs.ty] ≤ 1 then
      some [⟨callee.ty, Ty.elementTypes [lhs.ty, rhs.ty]⟩]
    else
      (Ty.lowerRanks [lhs.ty, rhs.ty] 1).toOption.map fun nested => [⟨callee.ty, nested⟩]
  | _ => some []

-- The requests that a node rests on.
def needs (source : Expr) (t : TypedExpr) : Option (List Request) := do
  let calls ← t.calls source
  let requests ← calls.mapM Call.requests?
  some requests.flatten

end TypedExpr

-- What a node rests on has been specialized.
def NeedsKept (store : Store) (e : Expr) (t : TypedExpr) : Prop :=
  ∃ requests, t.needs e = some requests ∧ ∀ request ∈ requests, store.Has request

-- Types with these kinds of elements.
theorem mapM_elementKind?_of_elementTypes {tys : List Ty} {kinds : List Scalar}
    (h : Ty.elementTypes tys = kinds.map Ty.scalar) : tys.mapM elementKind? = some kinds := by
  have hkinds := Annotate.mapM_scalar?_map kinds
  rw [← h, Ty.elementTypes, List.mapM_map] at hkinds
  exact hkinds

-- Without more than one dimension, what is left along an axis are the elements.
theorem elementType_of_lowerRank {ty lowered : Ty} (hrank : ty.rank ≤ 1)
    (h : ty.lowerRank 1 = .ok lowered) : lowered = ty.elementType := by
  cases ty with
  | scalar kind =>
      cases h
      rfl
  | array elem rank =>
      have hle : rank ≤ 1 := hrank
      simp only [Ty.lowerRank, Nat.one_ne_zero, if_false] at h
      split at h <;> cases h
      obtain rfl : rank = 1 := by omega
      rfl
  | _ => cases h

theorem elementTypes_of_lowerRanks {tys nested : List Ty} (hrank : ∀ ty ∈ tys, ty.rank ≤ 1)
    (h : Ty.lowerRanks tys 1 = .ok nested) : nested = Ty.elementTypes tys := by
  have hrel := Ty.forall₂_lowerRanks h
  clear h
  induction hrel with
  | nil => rfl
  | cons hfirst _ ih =>
      obtain ⟨hty, hrest⟩ := List.forall_mem_cons.mp hrank
      rw [elementType_of_lowerRank hty hfirst, ih hrest]
      rfl

theorem maxRank_pair (x y : Ty) : Ty.maxRank [x, y] = max x.rank y.rank := by
  simp [Ty.maxRank]

section Kept

variable {store : Store} {known : Request → Option Ty}

-- An answered call comes to requests that are all known.
theorem requests_of_answer {callee ty : Ty} {args : List Ty}
    (h : answer store.result? callee args = some ty) :
    ∃ requests, Call.requests? ⟨callee, args⟩ = some requests ∧
      ∀ request ∈ requests, store.Has request := by
  obtain ⟨members, hmembers, hknown⟩ := answer_known h
  refine ⟨members.map fun member => ⟨member.func, member.captured ++ args⟩, ?_, ?_⟩
  · unfold Call.requests?
    rw [hmembers]
    rfl
  · intro request hrequest
    obtain ⟨member, hmember, rfl⟩ := List.mem_map.mp hrequest
    exact Store.has_iff.mpr (hknown member hmember)

-- A node whose calls have all been answered rests on what has been specialized.
theorem NeedsKept.of_calls {e : Expr} {t : TypedExpr} {calls : List Call}
    (hcalls : t.calls e = some calls)
    (h : ∀ call ∈ calls, ∃ ty, answer store.result? call.callee call.args = some ty) :
    NeedsKept store e t := by
  have hrequests : ∃ requests, calls.mapM Call.requests? = some requests ∧
      ∀ request ∈ requests.flatten, store.Has request := by
    clear hcalls
    induction calls with
    | nil => exact ⟨[], rfl, nofun⟩
    | cons call calls ih =>
        obtain ⟨⟨ty, hty⟩, hrest⟩ := List.forall_mem_cons.mp h
        obtain ⟨first, hfirst, hhas⟩ := requests_of_answer hty
        obtain ⟨rest, hmap, hhas'⟩ := ih hrest
        refine ⟨first :: rest, ?_, ?_⟩
        · rw [List.mapM_cons, hfirst, hmap]
          rfl
        · rw [List.flatten_cons]
          exact List.forall_mem_append.mpr ⟨hhas, hhas'⟩
  obtain ⟨requests, hmap, hhas⟩ := hrequests
  refine ⟨requests.flatten, ?_, hhas⟩
  unfold TypedExpr.needs
  rw [hcalls]
  simp only [Option.bind_eq_bind, Option.bind_some, hmap]

theorem NeedsKept.of_call {e : Expr} {t : TypedExpr} {callee ty : Ty} {args : List Ty}
    (hcalls : t.calls e = some [⟨callee, args⟩])
    (h : answer store.result? callee args = some ty) : NeedsKept store e t :=
  .of_calls hcalls (List.forall_mem_singleton.mpr ⟨ty, h⟩)

-- The axis that is recorded for pairs tells what their function is called with.
theorem calls_allPairs {e : Expr} {callee lhs rhs : TypedExpr} {given : Option Nat} {ty : Ty}
    {nested : List Ty} (h : PairTypes [lhs.ty, rhs.ty] given nested) :
    (TypedExpr.allPairs callee lhs rhs (recordedAxis given (Ty.maxRank [lhs.ty, rhs.ty]))
      ty).calls e = some [⟨callee.ty, nested⟩] := by
  simp only [TypedExpr.calls]
  cases h with
  | elements =>
      refine if_pos ?_
      unfold recordedAxis
      by_cases hrank : Ty.maxRank [lhs.ty, rhs.ty] = 1
      · exact Or.inr hrank.le
      · exact Or.inl (if_neg hrank)
  | along _ hnested =>
      by_cases hrank : Ty.maxRank [lhs.ty, rhs.ty] ≤ 1
      · have hranks : ∀ ty ∈ [lhs.ty, rhs.ty], ty.rank ≤ 1 := by
          rw [maxRank_pair] at hrank
          simpa using hrank
        rw [if_pos (Or.inr hrank), elementTypes_of_lowerRanks hranks hnested]
      · rw [if_neg (not_or.mpr ⟨nofun, hrank⟩), hnested]
        rfl

-- A node that has been typed rests on what has been specialized. Its axis has to
-- be the recorded one, as an adverb of pairs is called by it.
theorem needsKept_of_elaborates {naming : Naming} ⦃e : Expr⦄ ⦃t : TypedExpr⦄
    (h : e.Elaborates (NodeTyped store) naming t) : NeedsKept store e t := by
  have hquiet : ∀ {e : Expr} {t : TypedExpr}, t.calls e = some [] → NeedsKept store e t :=
    fun hcalls => .of_calls hcalls nofun
  cases h with
  | var | const | tuple | array | index | project | slice | «attribute» | prim | closure =>
      exact hquiet rfl
  | lift _ _ _ hnode =>
      cases hnode with
      | lift _ hkinds _ helem =>
          refine .of_call ?_ helem
          simp only [TypedExpr.calls, mapM_elementKind?_of_elementTypes hkinds, Option.map_some]
  | invoke _ _ hnode =>
      cases hnode with
      | invoke hty => exact .of_call rfl hty
  | map _ _ _ hnode =>
      cases hnode with
      | map _ hnested helem =>
          refine .of_call ?_ helem
          simp only [TypedExpr.calls, hnested]
          rfl
  | fold _ _ _ _ hnode =>
      cases hnode with
      | reduce _ hacc hcalls | scan _ hacc hcalls =>
          refine .of_calls (by simp only [TypedExpr.calls, hacc]; rfl) ?_
          intro call hcall
          obtain ⟨func, hfunc, rfl⟩ := List.mem_map.mp hcall
          exact ⟨_, hcalls func hfunc⟩
  | allPairs _ _ _ haxis hnode =>
      cases hnode with
      | allPairs hgiven hnested helem =>
          cases haxis.symm.trans hgiven
          exact .of_call (calls_allPairs hnested) helem

end Kept

-- A specialization has a node that rests on the request.
def Specialization.Needs (func : Func) (spec : Specialization) (request : Request) : Prop :=
  ∃ s u, (s, u) ∈ (Stmt.withinBlock func.body).zip (Stmt.withinBlock spec.body) ∧
    ∃ e t, (e, t) ∈ s.exprs.zip u.exprs ∧ ∃ node typed, Expr.Aligned e t node typed ∧
      ∃ requests, typed.needs node = some requests ∧ request ∈ requests

section Alike

variable {ε δ : Type} {naming : Naming} {alike : ε → δ → Prop}

theorem Stmt.Alike.exprs {x : Stmt ε} {y : Stmt δ} (h : x.Alike naming alike y) :
    List.Forall₂ alike x.exprs y.exprs := by
  have hmerges : ∀ {ms : List (Merge ε)} {ns : List (Merge δ)},
      List.Forall₂ (Merge.Alike naming alike) ms ns →
      List.Forall₂ alike (ms.flatMap fun merge => [merge.left, merge.right])
        (ns.flatMap fun merge => [merge.left, merge.right]) :=
    fun h => List.rel_flatMap h fun _ _ hmerge => .cons hmerge.left (.cons hmerge.right .nil)
  cases h with
  | assign hx hv => exact .cons hx (.cons hv .nil)
  | branch hc _ _ hm => exact .cons hc (hmerges hm)
  | loop hc _ hm => exact .cons hc (hmerges hm)
  | ret hv => exact .cons hv .nil

mutual

theorem Stmt.Alike.within : ∀ (x : Stmt ε) (y : Stmt δ), x.Alike naming alike y →
    List.Forall₂ (Stmt.Alike naming alike) x.within y.within
  | .assign .., _, .assign hx hv => .cons (.assign hx hv) .nil
  | .branch _ xs xs' _, _, .branch hc h h' hm =>
      .cons (.branch hc h h' hm)
        (List.rel_append (Stmt.Alike.withinBlock xs _ h) (Stmt.Alike.withinBlock xs' _ h'))
  | .loop _ xs _, _, .loop hc h hm => .cons (.loop hc h hm) (Stmt.Alike.withinBlock xs _ h)
  | .ret _, _, .ret hv => .cons (.ret hv) .nil
  termination_by structural x => x

theorem Stmt.Alike.withinBlock : ∀ (xs : List (Stmt ε)) (ys : List (Stmt δ)),
    List.Forall₂ (Stmt.Alike naming alike) xs ys →
    List.Forall₂ (Stmt.Alike naming alike) (Stmt.withinBlock xs) (Stmt.withinBlock ys)
  | [], _, .nil => .nil
  | x :: xs, _, .cons h hs =>
      List.rel_append (Stmt.Alike.within x _ h) (Stmt.Alike.withinBlock xs _ hs)
  termination_by structural xs => xs

end

-- What a specialization needs has been specialized, if its nodes have been typed
-- by what has been.
theorem Func.Elaborates.needs {store : Store} {func : Func} {names : NameMap String}
    {spec : Specialization} {request : Request}
    (h : func.Elaborates (NodeTyped store) names spec) (hneeds : spec.Needs func request) :
    store.Has request := by
  obtain ⟨s, u, hstmt, e, t, hexpr, node, typed, haligned, requests, hrequests, hmem⟩ := hneeds
  obtain ⟨body, hbody, heq⟩ := h.body
  -- A value that is returned at the end has no source, and needs nothing.
  have hstmts : ∃ rest, spec.body = body ++ rest := by
    rw [heq]
    split
    · exact ⟨[], (List.append_nil body).symm⟩
    · exact ⟨_, rfl⟩
  obtain ⟨rest, hrest⟩ := hstmts
  have hblock := Stmt.Alike.withinBlock _ _ hbody
  rw [hrest, Stmt.withinBlock_append, zip_append_right hblock.length_eq] at hstmt
  have he := List.forall₂_zip (List.forall₂_zip hblock hstmt).exprs hexpr
  obtain ⟨requests', hrequests', hhas⟩ := needsKept_of_elaborates (he.aligned haligned)
  cases hrequests.symm.trans hrequests'
  exact hhas request hmem

end Alike

end RankPoly
