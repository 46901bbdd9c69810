import RankPoly.Demo
import RankPoly.Proofs.Session.Met
import RankPoly.Proofs.Steps.Expr

namespace RankPoly

open Annotate

-- As many dimensions as there are can be taken off, and put back.
theorem Ty.exists_lowerRank {ty : Ty} {count : Nat} (h : count ≤ ty.rank) :
    ∃ lowered, ty.lowerRank count = .ok lowered ∧ lowered.increaseRank count = .ok ty := by
  by_cases hzero : count = 0
  · subst hzero
    exact ⟨ty, rfl, rfl⟩
  · cases ty with
    | array elem rank =>
        have hle : count ≤ rank := h
        refine ⟨ofRank elem (rank - count), ?_, ?_⟩
        · simp [lowerRank, hzero, hle]
        · rw [increaseRank_ofRank, Nat.sub_add_cancel hle, ofRank_of_pos elem (by omega)]
    | _ => exact absurd (Nat.le_zero.mp h) hzero

theorem Ty.increaseRank_of_lowerRank {ty lowered : Ty} {count : Nat} (hle : count ≤ ty.rank)
    (h : ty.lowerRank count = .ok lowered) : lowered.increaseRank count = .ok ty := by
  obtain ⟨_, hlowered, hraised⟩ := exists_lowerRank hle
  cases h.symm.trans hlowered
  exact hraised

namespace Annotate

variable {ctx : Context} {args callees tys : List Ty} {store later : Store}

-- Calls come to the same when they are made at the same time.
theorem Calls.det (h : Calls ctx args callees store tys later) : ∀ {tys' : List Ty}
    {later' : Store}, Calls ctx args callees store tys' later' → tys = tys' ∧ later = later' := by
  induction h with
  | nil =>
      rintro _ _ ⟨⟩
      exact ⟨rfl, rfl⟩
  | cons hfirst _ ih =>
      intro _ _ h'
      cases h' with
      | cons hfirst' hrest =>
          cases hfirst.symm.trans hfirst'
          obtain ⟨rfl, rfl⟩ := ih hrest
          exact ⟨rfl, rfl⟩

theorem Calls.length_eq (h : Calls ctx args callees store tys later) :
    tys.length = callees.length := by
  induction h with
  | nil => rfl
  | cons _ _ ih => simp [ih]

-- What a fold has is what is folded, less its axis in case of a reduction.
theorem fold_type {kind : Fold} {axis : Option Nat} {ty acc folded : Ty}
    (hrange : ∀ i ∈ axis, i < ty.rank) (hacc : ty.lowerRank (axisCount axis) = .ok acc)
    (h : foldType kind acc (axisCount axis) = .ok folded) :
    (kind = .scan → folded = ty) ∧
      (kind = .reduce → folded.increaseRank (axisCount axis) = .ok ty) := by
  have hraised := Ty.increaseRank_of_lowerRank (axisCount_le hrange) hacc
  cases kind with
  | reduce =>
      cases h
      exact ⟨nofun, fun _ => hraised⟩
  | scan =>
      cases hraised.symm.trans h
      exact ⟨fun _ => rfl, nofun⟩

theorem exists_foldType {axis : Option Nat} {ty acc : Ty} (kind : Fold)
    (hrange : ∀ i ∈ axis, i < ty.rank) (hacc : ty.lowerRank (axisCount axis) = .ok acc) :
    ∃ folded, foldType kind acc (axisCount axis) = .ok folded := by
  cases kind with
  | reduce => exact ⟨acc, rfl⟩
  | scan => exact ⟨ty, Ty.increaseRank_of_lowerRank (axisCount_le hrange) hacc⟩

section Fold

variable {kind : Fold} {f e : Expr} {operand combiner : Option Expr} {given : Option Nat}
  {locals middle middle' last : Locals} {between between' final : Store} {callee arg : TypedExpr}
  {c : Option TypedExpr} {acc : Ty}

-- Once its parts are typed, a fold is typed if it can be applied to them.
theorem yields_fold_of_parts {t : TypedExpr} {locals' : Locals}
    (hf : Yields (expr ctx f) locals store callee middle between)
    (hcallable : callee.ty.isCallable = true)
    (hc : Yields (optionalCallee ctx combiner) middle between c middle' between')
    (harg : Yields (expr ctx e) middle' between' arg last final)
    (hgiven : givenAxis operand = some given) :
    Yields (expr ctx (.fold kind f [e] operand none combiner)) locals store t locals' later ↔
      Yields (applyFold ctx kind callee c arg given) last final t locals' later := by
  rw [yields_fold]
  constructor
  · rintro ⟨_, _, _, _, _, _, _, _, _, _, hgiven', hf', -, hc', harg', happly⟩
    cases hgiven.symm.trans hgiven'
    cases hf.symm.trans hf'
    cases hc.symm.trans hc'
    cases harg.symm.trans harg'
    exact happly
  · intro happly
    exact ⟨given, callee, middle, between, c, middle', between', arg, last, final, hgiven, hf,
      hcallable, hc, harg, happly⟩

-- It can be applied if each call gives back the type that it is made with twice.
theorem exists_applyFold_iff (hrange : ∀ i ∈ given, i < arg.ty.rank)
    (hacc : arg.ty.lowerRank (axisCount (recordedAxis given arg.ty.rank)) = .ok acc)
    (hcalls : Calls ctx [acc, acc] (typesOf (callee :: c.toList)) final tys later) :
    (∃ t locals' later', Yields (applyFold ctx kind callee c arg given) last final t locals'
      later') ↔ ∀ ty ∈ tys, ty = acc := by
  constructor
  · rintro ⟨t, locals', later', h⟩ ty hty
    obtain ⟨_, _, _, rfl, -, hacc', hcalls', -⟩ := yields_applyFold.mp h
    cases hacc.symm.trans hacc'
    obtain ⟨rfl, rfl⟩ := hcalls.det hcalls'
    obtain ⟨_, -, rfl⟩ := List.mem_map.mp hty
    rfl
  · intro hsame
    have htys : tys = (callee :: c.toList).map fun _ => acc := by
      rw [List.map_const', List.eq_replicate_iff]
      exact ⟨by simpa [typesOf] using hcalls.length_eq, hsame⟩
    obtain ⟨ty, hty⟩ := exists_foldType kind (recordedAxis_lt hrange) hacc
    exact ⟨_, last, later, yields_applyFold.mpr
      ⟨_, acc, ty, rfl, hrange, hacc, htys ▸ hcalls, hty, rfl, rfl⟩⟩

end Fold

end Annotate

-- A fold that is typed has the type of what is folded, which a reduction has once the axis is put
-- back. It is typed just if all that it calls gives back the type that is left along the axis, and
-- there always is one.
theorem fold_keeps_type (ctx : Context) (kind : Fold) :
    (∀ {f : Expr} {es : List Expr} {operand init combiner : Option Expr}
        {locals locals' : Locals} {store later : Store} {t : TypedExpr},
      Yields (expr ctx (.fold kind f es operand init combiner)) locals store t locals' later →
      ∃ callee arg given axis c ty, t = .fold kind callee arg axis c ty ∧
        givenAxis operand = some given ∧ axis = recordedAxis given arg.ty.rank ∧
        (kind = .scan → ty = arg.ty) ∧
        (kind = .reduce → ty.increaseRank (axisCount axis) = .ok arg.ty)) ∧
    ∀ {f e : Expr} {operand combiner : Option Expr} {given : Option Nat}
      {locals middle middle' last : Locals} {store between between' final : Store}
      {callee arg : TypedExpr} {c : Option TypedExpr},
      Yields (expr ctx f) locals store callee middle between → callee.ty.isCallable = true →
      Yields (optionalCallee ctx combiner) middle between c middle' between' →
      Yields (expr ctx e) middle' between' arg last final →
      givenAxis operand = some given → (∀ i ∈ given, i < arg.ty.rank) →
      ∃ acc, arg.ty.lowerRank (axisCount (recordedAxis given arg.ty.rank)) = .ok acc ∧
        ∀ {tys : List Ty} {later : Store},
          Calls ctx [acc, acc] (typesOf (callee :: c.toList)) final tys later →
          ((∃ t locals' later', Yields (expr ctx (.fold kind f [e] operand none combiner)) locals
              store t locals' later') ↔ ∀ ty ∈ tys, ty = acc) := by
  constructor
  · intro f es operand init combiner locals locals' store later t h
    obtain ⟨rfl, e, rfl⟩ := fold_of_yields h
    obtain ⟨given, callee, _, _, c, _, _, arg, _, _, hgiven, -, -, -, -, happly⟩ := yields_fold.mp h
    obtain ⟨axis, acc, ty, haxis, hrange, hacc, -, hty, rfl, -⟩ := yields_applyFold.mp happly
    have hrange : ∀ i ∈ axis, i < arg.ty.rank := haxis ▸ recordedAxis_lt hrange
    exact ⟨callee, arg, given, axis, c, ty, rfl, hgiven, haxis, fold_type hrange hacc hty⟩
  · intro f e operand combiner given locals middle middle' last store between between' final callee
      arg c hf hcallable hc harg hgiven hrange
    obtain ⟨acc, hacc, -⟩ := Ty.exists_lowerRank (axisCount_le (recordedAxis_lt hrange))
    refine ⟨acc, hacc, fun hcalls => ?_⟩
    simp only [yields_fold_of_parts hf hcallable hc harg hgiven]
    exact exists_applyFold_iff hrange hacc hcalls

-- The rows of a matrix are scanned along the inner axis, with a combiner.
theorem scan_of_rows_typed :
    let first := Demo.define "first" ["x", "y"] [.ret (.var "x")]
    let store := Operation.after (.ofLimits {}) {} (.register first)
    let ctx := Settings.context (.ofLimits {}) 1 []
    let locals : Locals := { names := [("m", "m.0")], env := [("m.0", .array .f64 2)] }
    let f : Expr := .closure "first" []
    ∃ callee arg c locals' later, Yields
      (expr ctx (.fold .scan f [.var "m"] (some (.const (.int 1))) none (some f))) locals store
      (.fold .scan callee arg (some 1) c arg.ty) locals' later := by
  intro first store ctx locals f
  have hf : Yields (expr ctx f) locals store (.closure "first" [] (.closure ⟨"first", []⟩)) locals
    store := rfl
  have hc : Yields (optionalCallee ctx (some f)) locals store
    (some (.closure "first" [] (.closure ⟨"first", []⟩))) locals store := rfl
  have harg : Yields (expr ctx (.var "m")) locals store (.var "m.0" (.array .f64 2)) locals store :=
    rfl
  have hgiven : givenAxis (some (.const (.int 1))) = some (some 1) := rfl
  obtain ⟨acc, hacc, hiff⟩ := (fold_keeps_type ctx .scan).2 hf rfl hc harg hgiven
    (by rintro _ ⟨⟩; exact Nat.lt_succ_self 1)
  obtain rfl : acc = .array .f64 1 := (Except.ok.inj hacc).symm
  have hcalls : ∃ later, Calls ctx [.array .f64 1, .array .f64 1]
      [.closure ⟨"first", []⟩, .closure ⟨"first", []⟩] store
      [.array .f64 1, .array .f64 1] later := by
    subst first store ctx locals f
    exact ⟨_, .cons rfl (.cons rfl .nil)⟩
  obtain ⟨later, hcalls⟩ := hcalls
  obtain ⟨t, locals', later', h⟩ := (hiff hcalls).mpr (by simp)
  obtain ⟨callee, arg, given, axis, c, ty, rfl, hgiven', rfl, hscan, -⟩ :=
    (fold_keeps_type ctx .scan).1 h
  cases hgiven.symm.trans hgiven'
  obtain rfl := hscan rfl
  exact ⟨callee, arg, c, locals', later', h⟩

end RankPoly
