import RankPoly.Proofs.Fixpoint
import RankPoly.Proofs.Flow.Calls
import RankPoly.Proofs.Memo
import RankPoly.Proofs.Steps.Expr

namespace RankPoly

open Annotate

namespace Annotate

-- An operand that names the axis, or no operand.
def axisOperand (axis : Option Nat) : Option Expr :=
  axis.map fun i => .const (.int i)

@[simp] theorem givenAxis_axisOperand (axis : Option Nat) :
    givenAxis (axisOperand axis) = some axis := by
  cases axis <;> simp [axisOperand, givenAxis]

end Annotate

theorem Ty.stable_trivial : Ty.Stable fun _ => True where
  scalar _ := trivial
  array _ _ _ := trivial
  tuple _ := trivial
  struct _ := trivial
  closure _ := trivial
  slice _ _ _ := trivial
  none := trivial
  empty _ := trivial
  singleton _ := trivial
  insert _ _ := trivial

section Pairs

-- One dimension can be taken off of scalars and of arrays, and of nothing else.
theorem Ty.hasKind_of_lowerRank {ty lowered : Ty} (h : ty.lowerRank 1 = .ok lowered) :
    ∃ kind, ty.HasKind kind := by
  cases ty with
  | scalar kind => exact ⟨kind, 0, rfl⟩
  | array elem rank =>
      simp only [lowerRank, Nat.one_ne_zero, if_false] at h
      split at h <;> cases h
      rename_i hrank
      exact ⟨elem, rank, (if_neg (Nat.ne_of_gt hrank)).symm⟩
  | _ => cases h

theorem Ty.lowerRank_of_hasKind {ty : Ty} {kind : Scalar} (h : ty.HasKind kind)
    (hrank : ty.rank ≤ 1) : ty.lowerRank 1 = .ok ty.elementType := by
  obtain ⟨rank, rfl⟩ := h
  have hlowered := lowerRank_ofRank kind rank le_rfl
  rw [hlowered, elementType_of_lowerRank hrank hlowered]

theorem Ty.lowerRanks_eq_ok_iff {x y : Ty} {nested : List Ty} {count : Nat} :
    Ty.lowerRanks [x, y] count = .ok nested ↔
      ∃ a b, x.lowerRank count = .ok a ∧ y.lowerRank count = .ok b ∧ nested = [a, b] := by
  unfold lowerRanks
  simp only [List.mapM_cons, List.mapM_nil]
  cases x.lowerRank count <;> cases y.lowerRank count <;>
    simp [bind, Except.bind, pure, Except.pure, eq_comm]

-- Along an axis there are only scalars and arrays to be paired.
theorem hasKind_of_pairTypes {x y : Ty} {axis : Nat} {nested : List Ty}
    (h : PairTypes [x, y] (some axis) nested) : ∀ ty ∈ [x, y], ∃ kind, ty.HasKind kind := by
  cases h with
  | along _ hnested =>
      obtain ⟨a, b, ha, hb, -⟩ := Ty.lowerRanks_eq_ok_iff.mp hnested
      simp only [List.forall_mem_cons]
      exact ⟨Ty.hasKind_of_lowerRank ha, Ty.hasKind_of_lowerRank hb, List.forall_mem_nil _⟩

-- What is left of vectors and scalars along the axis that is recorded for them are the elements.
theorem pairTypes_recorded {x y : Ty} {given : Option Nat} {nested : List Ty}
    (h : PairTypes [x, y] given nested)
    (hkinds : given = none → recordedAxis given (Ty.maxRank [x, y]) ≠ none →
      ∀ ty ∈ [x, y], ∃ kind, ty.HasKind kind) :
    PairTypes [x, y] (recordedAxis given (Ty.maxRank [x, y])) nested := by
  cases h with
  | along hrange hnested => exact .along hrange hnested
  | elements =>
      unfold recordedAxis at hkinds ⊢
      dsimp only at hkinds ⊢
      split at hkinds
      · rename_i hrank
        obtain ⟨⟨_, hx⟩, ⟨_, hy⟩, -⟩ : _ ∧ _ ∧ _ := by
          simpa only [List.forall_mem_cons] using hkinds rfl (Option.some_ne_none 0)
        rw [if_pos hrank]
        refine .along (by omega) (Ty.lowerRanks_eq_ok_iff.mpr ?_)
        rw [maxRank_pair] at hrank
        exact ⟨_, _, Ty.lowerRank_of_hasKind hx (by omega), Ty.lowerRank_of_hasKind hy (by omega),
          rfl⟩
      · rename_i hrank
        rw [if_neg hrank]
        exact .elements

end Pairs

section Recorded

variable {ctx : Context} {locals locals' : Locals} {store later : Store} {f : Expr}
  {es : List Expr} {operand : Option Expr} {t : TypedExpr}

-- The axis that is recorded may be named from the start.
theorem map_recorded (h : Yields (expr ctx (.map f es operand)) locals store t locals' later) :
    ∃ callee ts axis ty, t = .map callee ts axis ty ∧
      Yields (expr ctx (.map f es (axisOperand axis))) locals store t locals' later := by
  obtain ⟨given, callee, middle, between, ts, middle', between', -, hf, hcallable, hes, happly⟩ :=
    yields_map.mp h
  obtain ⟨axis, nested, elem, ty, rfl, hrange, hnested, hcall, hty, rfl, rfl⟩ :=
    yields_applyMap.mp happly
  refine ⟨callee, ts, _, ty, rfl, yields_map.mpr ?_⟩
  refine ⟨_, callee, middle, between, ts, _, between', givenAxis_axisOperand _, hf, hcallable, hes,
    yields_applyMap.mpr ?_⟩
  exact ⟨_, nested, elem, ty, (recordedAxis_idem _ _).symm, recordedAxis_lt hrange, hnested, hcall,
    hty, rfl, rfl⟩

theorem fold_recorded {kind : Fold} {init combiner : Option Expr}
    (h : Yields (expr ctx (.fold kind f es operand init combiner)) locals store t locals' later) :
    ∃ callee arg axis c ty, t = .fold kind callee arg axis c ty ∧
      Yields (expr ctx (.fold kind f es (axisOperand axis) init combiner)) locals store t locals'
        later := by
  obtain ⟨rfl, e, rfl⟩ := fold_of_yields h
  obtain ⟨given, callee, middle, between, c, middle', between', arg, last, final, -, hf, hcallable,
    hc, harg, happly⟩ := yields_fold.mp h
  obtain ⟨axis, acc, ty, rfl, hrange, hacc, hcalls, hty, rfl, rfl⟩ := yields_applyFold.mp happly
  refine ⟨callee, arg, _, c, ty, rfl, yields_fold.mpr ?_⟩
  refine ⟨_, callee, middle, between, c, middle', between', arg, _, final,
    givenAxis_axisOperand _, hf, hcallable, hc, harg, yields_applyFold.mpr ?_⟩
  exact ⟨_, acc, ty, (recordedAxis_idem _ _).symm, recordedAxis_lt hrange, hacc, hcalls, hty, rfl,
    rfl⟩

theorem allPairs_recorded
    (h : Yields (expr ctx (.allPairs f es operand)) locals store t locals' later) :
    ∃ given callee x y axis ty, givenAxis operand = some given ∧
      axis = recordedAxis given (Ty.maxRank [x.ty, y.ty]) ∧ t = .allPairs callee x y axis ty ∧
      ((given = none → axis ≠ none → ∀ ty ∈ [x.ty, y.ty], ∃ kind, ty.HasKind kind) →
        Yields (expr ctx (.allPairs f es (axisOperand axis))) locals store t locals' later) := by
  obtain ⟨a, b, rfl⟩ := pair_of_yields h
  obtain ⟨given, callee, middle, between, x, middle', between', y, last, final, hgiven, hf,
    hcallable, ha, hb, happly⟩ := yields_allPairs.mp h
  obtain ⟨nested, elem, ty, hnested, hcall, hty, rfl, rfl⟩ := yields_applyAllPairs.mp happly
  refine ⟨given, callee, x, y, _, ty, hgiven, rfl, rfl, fun hkinds => yields_allPairs.mpr ?_⟩
  refine ⟨_, callee, middle, between, x, middle', between', y, _, final, givenAxis_axisOperand _,
    hf, hcallable, ha, hb, yields_applyAllPairs.mpr ?_⟩
  exact ⟨nested, elem, ty, pairTypes_recorded hnested hkinds, hcall, hty,
    by rw [recordedAxis_idem], rfl⟩

-- The arguments can be paired along an axis that has been named for them.
theorem hasKind_of_allPairs {callee x y : TypedExpr} {axis : Option Nat} {ty : Ty} {i : Nat}
    (h : Yields (expr ctx (.allPairs f es (axisOperand (some i)))) locals store
      (.allPairs callee x y axis ty) locals' later) :
    ∀ ty ∈ [x.ty, y.ty], ∃ kind, ty.HasKind kind := by
  obtain ⟨a, b, rfl⟩ := pair_of_yields h
  obtain ⟨given, _, _, _, _, _, _, _, _, _, hgiven, -, -, -, -, happly⟩ := yields_allPairs.mp h
  obtain ⟨_, _, _, hnested, -, -, ⟨⟩, -⟩ := yields_applyAllPairs.mp happly
  rw [givenAxis_axisOperand] at hgiven
  cases hgiven
  exact hasKind_of_pairTypes hnested

end Recorded

-- An expression that has been typed is typed in the same way again, by what is known then.
theorem Annotate.expr_again {settings : Settings} {store later : Store}
    (hstore : Met settings store) {depth : Nat} {waiting : List Request} {e : Expr}
    {locals locals' : Locals} {t : TypedExpr}
    (h : Yields (expr (settings.context depth waiting) e) locals store t locals' later) :
    ∃ last, Yields (expr (settings.context depth waiting) e) locals' later t locals' last := by
  have hkept := Session.kept_coherent settings
  have hcoherent : store.Coherent := (lasting_coherent settings).of_met hstore
  have hflowing := hkept.flowing Ty.stable_trivial.regime
    (fun h => ⟨h, fun _ _ _ _ => trivial⟩) depth waiting
  obtain ⟨-, hreads⟩ := expr_flows hflowing e ⟨hcoherent, fun _ _ _ => trivial⟩ h
  obtain ⟨rfl, hrecurs⟩ := expr_recurs (hkept.recalling id depth waiting) e hcoherent le_rfl h
    hreads.vars
  obtain ⟨last, hagain, -⟩ := hrecurs.again hrecurs.kept (.refl later)
  exact ⟨last, hagain⟩

-- The axis that an adverb records can be named in its place, at any time of a session, and the
-- adverb is typed as before. Only where the elements of vectors have been paired without naming an
-- axis, that holds just if neither argument is anything but a scalar or an array.
theorem recorded_axis_faithful {settings : Settings} {store later : Store}
    (hstore : Met settings store) {depth : Nat} {waiting : List Request}
    {locals locals' : Locals} {t : TypedExpr} (e : Expr)
    (h : Yields (expr (settings.context depth waiting) e) locals store t locals' later) :
    let again (e : Expr) :=
      ∃ last, Yields (expr (settings.context depth waiting) e) locals' later t locals' last
    (∀ f es operand, e = .map f es operand →
      ∃ callee ts axis ty, t = .map callee ts axis ty ∧ again (.map f es (axisOperand axis))) ∧
    (∀ kind f es operand init combiner, e = .fold kind f es operand init combiner →
      ∃ callee arg axis c ty, t = .fold kind callee arg axis c ty ∧
        again (.fold kind f es (axisOperand axis) init combiner)) ∧
    ∀ f es operand, e = .allPairs f es operand →
      ∃ callee x y axis ty, t = .allPairs callee x y axis ty ∧
        (again (.allPairs f es (axisOperand axis)) ↔
          (givenAxis operand = some none → axis ≠ none →
            ∀ arg ∈ [x, y], ∃ kind, arg.ty.HasKind kind)) := by
  intro again
  refine ⟨?_, ?_, ?_⟩
  · rintro f es operand rfl
    obtain ⟨callee, ts, axis, ty, rfl, hrecorded⟩ := map_recorded h
    exact ⟨callee, ts, axis, ty, rfl, expr_again hstore hrecorded⟩
  · rintro kind f es operand init combiner rfl
    obtain ⟨callee, arg, axis, c, ty, rfl, hrecorded⟩ := fold_recorded h
    exact ⟨callee, arg, axis, c, ty, rfl, expr_again hstore hrecorded⟩
  · rintro f es operand rfl
    obtain ⟨given, callee, x, y, axis, ty, hgiven, haxis, rfl, hrecorded⟩ := allPairs_recorded h
    refine ⟨callee, x, y, axis, ty, rfl, ?_⟩
    constructor
    · rintro ⟨last, hagain⟩ - haxis
      obtain ⟨i, rfl⟩ := Option.ne_none_iff_exists'.mp haxis
      simpa using hasKind_of_allPairs hagain
    · intro hkinds
      refine expr_again hstore (hrecorded ?_)
      rintro rfl hsome
      simpa using hkinds hgiven hsome

-- A vector and a number are paired without an axis, and along the axis that is recorded.
theorem vector_pairs_retyped :
    let first := Demo.define "first" ["x", "y"] [.ret (.var "x")]
    let store := Operation.after (.ofLimits {}) {} (.register first)
    let ctx := Settings.context (.ofLimits {}) 1 []
    let pairs (operand : Option Expr) : Expr :=
      .allPairs (.closure "first" []) [.array [.const (.int 1)], .const (.int 2)] operand
    ∃ t later last, Yields (expr ctx (pairs none)) {} store t {} later ∧
      Yields (expr ctx (pairs (axisOperand (some 0)))) {} later t {} last := by
  intro first store ctx pairs
  have hstore : Reachable (.ofLimits {}) [first] store := .step (.register first) .start
  obtain ⟨t, later, heq, h⟩ : ∃ t later,
      t = .allPairs (.closure "first" [] (.closure ⟨"first", []⟩))
        (.array [.const (.int 1) .i64] (.array .i64 1)) (.const (.int 2) .i64) (some 0)
        (.array .i64 2) ∧
      Yields (expr ctx (pairs none)) {} store t {} later := by
    subst first store ctx pairs
    exact ⟨_, _, rfl, rfl⟩
  obtain ⟨callee, x, y, axis, ty, heq', hagain⟩ :=
    (recorded_axis_faithful (.reached hstore) (pairs none) h).2.2 _ _ _ rfl
  cases heq.symm.trans heq'
  obtain ⟨last, hlast⟩ := hagain.mpr fun _ _ => by
    simp only [List.forall_mem_cons]
    exact ⟨⟨.i64, 1, rfl⟩, ⟨.i64, 0, rfl⟩, List.forall_mem_nil _⟩
  exact ⟨t, later, last, h, heq ▸ hlast⟩

-- A tuple is an element, but has no axis.
theorem tuple_pairs_not_retyped :
    let first := Demo.define "first" ["x", "y"] [.ret (.var "x")]
    let store := Operation.after (.ofLimits {}) {} (.register first)
    let ctx := Settings.context (.ofLimits {}) 1 []
    let pairs (operand : Option Expr) : Expr :=
      .allPairs (.closure "first" []) [.array [.const (.int 1)], .tuple [.const (.int 2)]] operand
    ∃ callee x y later, Yields (expr ctx (pairs none)) {} store
        (.allPairs callee x y (some 0) (.array .i64 2)) {} later ∧
      outcome (expr ctx (pairs (axisOperand (some 0)))) {} later =
        (.error (.ofTy (.lowerRank (.tuple [.i64]) 1)), later) :=
  ⟨_, _, _, _, rfl, rfl⟩

end RankPoly
