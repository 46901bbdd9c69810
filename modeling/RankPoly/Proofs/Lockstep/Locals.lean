import RankPoly.Proofs.Lockstep.Rules

namespace RankPoly.Comparison

open Annotate (Context)

variable {W : Comparison} {naming : Naming} {α β : Type} {ctx ctx' : Context}
  {P : Likeness α} {Q : Likeness β}

theorem Sim.ofTy (hW : W.Respects ctx ctx') (result : Except TyError α) :
    W.Sim naming (.eq α) (Annotate.ofTy result) (Annotate.ofTy result) := by
  cases result with
  | ok a => exact Sim.value hW rfl
  | error error => exact Sim.failure hW (.refl _)

theorem Sim.require (hW : W.Respects ctx ctx') (condition : Bool) (reason : ShapeError) :
    W.Sim naming (.eq Unit) (Annotate.require condition reason)
      (Annotate.require condition reason) := by
  cases condition with
  | true => exact Sim.value hW rfl
  | false => exact Sim.failure hW (.refl _)

-- Both runs go on from what they see of their locals.
theorem Sim.get_bind {k k' : Locals → Annotate β} (P : Likeness Locals)
    (hlinked : ∀ {later}, naming ≤ later → ∀ {locals store locals' store'},
      W.Linked later locals store locals' store' → P.rel later locals locals')
    (hk : ∀ {later}, naming ≤ later → ∀ {locals locals'}, P.rel later locals locals' →
      W.Sim later Q (k locals) (k' locals')) :
    W.Sim naming Q (get >>= k) (get >>= k') := by
  refine ⟨?_, ?_⟩
  · intro locals store
    obtain ⟨later, hle, hrefl⟩ := naming.exists_reflexive
    exact (hk hle (P.mono hrefl (P.refl locals))).grows locals store
  · intro later hle locals store locals' store' h hwithin
    exact (hk hle (hlinked hle h)).ends le_rfl h hwithin

theorem Sim.get_value (hW : W.Respects ctx ctx') {f g : Locals → α}
    (h : ∀ {later}, naming ≤ later → ∀ {locals store locals' store'},
      W.Linked later locals store locals' store' → P.rel later (f locals) (g locals')) :
    W.Sim naming P (get >>= fun locals => pure (f locals))
      (get >>= fun locals => pure (g locals)) := by
  refine ⟨fun _ store => hW.grows_refl store, ?_⟩
  intro later hle locals store locals' store' hlinked _
  exact ⟨later, le_rfl, hlinked, h hle hlinked⟩

theorem Sim.refresh (hW : W.Respects ctx ctx') {name name' : String}
    (hasked : W.asked name name') :
    W.Sim naming .name (liftM (Session.refresh name)) (liftM (Session.refresh name')) := by
  refine ⟨fun _ store => hW.grows_fresh store name, ?_⟩
  intro later _ locals store locals' store' hlinked _
  exact ⟨_, later.le_adding _ _, hlinked.refresh hW hasked, later.adding_self _ _⟩

theorem Sim.rename (hW : W.Respects ctx ctx') (name : String) :
    W.Sim naming .name (Annotate.rename name) (Annotate.rename (W.var name)) := by
  refine ⟨fun _ store => hW.grows_fresh store name, ?_⟩
  intro later _ locals store locals' store' hlinked _
  have hdrawn := hlinked.refresh hW (hW.asked_var name)
  have hpair := later.adding_self (store.fresh.refresh name).1 (store'.fresh.refresh (W.var name)).1
  exact ⟨_, later.le_adding _ _, hdrawn.bindName name hpair, hpair⟩

theorem Sim.localFor (hW : W.Respects ctx ctx') (name : String) :
    W.Sim naming .name (Annotate.localFor name) (Annotate.localFor (W.var name)) := by
  refine ⟨?_, ?_⟩
  · intro locals store
    rw [Annotate.outcome_localFor]
    split
    · exact hW.grows_refl store
    · exact hW.grows_fresh store name
  · intro later hle locals store locals' store' hlinked hwithin
    rw [Annotate.outcome_localFor] at hwithin
    rw [Annotate.outcome_localFor, Annotate.outcome_localFor]
    have hnames := hlinked.names name
    generalize locals.names.find? name = known at hnames hwithin
    generalize locals'.names.find? (W.var name) = known' at hnames
    cases hnames with
    | none => exact (Sim.rename hW name).ends hle hlinked hwithin
    | some hmn => exact ⟨later, le_rfl, hlinked, hmn⟩

theorem Sim.widen (hW : W.Respects ctx ctx') {m n : String} (hmn : naming m n) (ty : Ty) :
    W.Sim naming (.eq Ty) (Annotate.widen m ty) (Annotate.widen n ty) := by
  refine ⟨?_, ?_⟩
  · intro locals store
    rw [Annotate.outcome_widen]
    split
    · exact hW.grows_refl store
    · split <;> exact hW.grows_refl store
  · intro later hle locals store locals' store' hlinked hwithin
    rw [Annotate.outcome_widen, Annotate.outcome_widen,
      optionRel_eq_iff.mp (hlinked.env.lookup (hle _ _ hmn))]
    cases locals'.env.find? n with
    | none => exact ⟨later, le_rfl, hlinked.bindTy (hle _ _ hmn) ty, rfl⟩
    | some known =>
        cases hcombine : known.combine ty with
        | ok widened =>
            simp only [hcombine]
            exact ⟨later, le_rfl, hlinked.bindTy (hle _ _ hmn) widened, rfl⟩
        | error error =>
            simp only [hcombine]
            exact Or.inr (Or.inr ⟨hlinked.agree, hW.errors_of_alike (.refl _)⟩)

theorem Sim.read (hW : W.Respects ctx ctx') (name : String) :
    W.Sim naming (.pair .name (.eq Ty)) (Annotate.read name) (Annotate.read (W.var name)) := by
  refine ⟨?_, ?_⟩
  · intro locals store
    rw [Annotate.outcome_read]
    split
    · exact hW.grows_refl store
    · split <;> exact hW.grows_refl store
  · intro later hle locals store locals' store' hlinked hwithin
    rw [Annotate.outcome_read, Annotate.outcome_read]
    have hnames := hlinked.names name
    generalize locals.names.find? name = known at hnames
    generalize locals'.names.find? (W.var name) = known' at hnames
    cases hnames with
    | none => exact Or.inr (Or.inr ⟨hlinked.agree, hW.errors_of_alike (.unboundName name)⟩)
    | some hmn =>
        rename_i m n
        simp only [optionRel_eq_iff.mp (hlinked.env.lookup hmn)]
        split
        · exact Or.inr (Or.inr ⟨hlinked.agree, hW.errors_of_alike (.unboundName name)⟩)
        · exact Or.inr (Or.inr ⟨hlinked.agree, hW.errors_of_alike (.unboundName name)⟩)
        · exact ⟨later, le_rfl, hlinked, hmn, rfl⟩

theorem Sim.returns (hW : W.Respects ctx ctx') (ty : Ty) :
    W.Sim naming (.eq Unit) (Annotate.returns ty) (Annotate.returns ty) := by
  refine ⟨?_, ?_⟩
  · intro locals store
    rw [Annotate.outcome_returns]
    split
    · exact hW.grows_refl store
    · split <;> exact hW.grows_refl store
  · intro later hle locals store locals' store' hlinked hwithin
    rw [Annotate.outcome_returns, Annotate.outcome_returns, hlinked.returnType]
    cases locals'.returnType with
    | none => exact ⟨later, le_rfl, hlinked.setReturn _, rfl⟩
    | some known =>
        cases hcombine : known.combine ty with
        | ok widened =>
            simp only [hcombine]
            exact ⟨later, le_rfl, hlinked.setReturn _, rfl⟩
        | error error =>
            simp only [hcombine]
            exact Or.inr (Or.inr ⟨hlinked.agree, hW.errors_of_alike (.refl _)⟩)

-- A call is answered alike, so what follows it starts from linked places.
theorem ends_of_answers {m m' : Session Ty} {locals locals' : Locals} {store store' : Store}
    (hlinked : W.Linked naming locals store locals' store')
    (hheld : ∀ {name name'}, W.held store name name' →
      W.held (Session.outcome m store).2 name name')
    (h : W.Answers store store' (Session.outcome m store) (Session.outcome m' store')) :
    W.Ends naming (.eq Ty) ((liftM m : Annotate Ty).outcome locals store)
      ((liftM m' : Annotate Ty).outcome locals' store') := by
  unfold Ends
  rw [Annotate.outcome_lift, Annotate.outcome_lift]
  refine h.andThen ?_
  rintro ty later ty' later' hleft - ⟨heq, hagree, hle, hle'⟩
  rw [hleft] at hheld
  exact ⟨naming, le_rfl, hlinked.setStore hagree hheld hle hle', heq⟩

theorem within_lift {m : Session α} {locals : Locals} {store : Store} :
    ((liftM m : Annotate α).outcome locals store).2 = (Session.outcome m store).2 := by
  rw [Annotate.outcome_lift]
  rcases Session.outcome m store with ⟨error | a, later⟩ <;> rfl

theorem Sim.invoke (hW : W.Respects ctx ctx') (callee : Ty) (args : List Ty) :
    W.Sim naming (.eq Ty) (liftM (ctx.invoke callee args)) (liftM (ctx'.invoke callee args)) := by
  refine ⟨?_, ?_⟩
  · intro locals store
    rw [within_lift]
    exact hW.grows_invoke store callee args
  · intro later _ locals store locals' store' hlinked hwithin
    rw [within_lift] at hwithin
    exact ends_of_answers hlinked (hW.held_grows (hW.grows_invoke store callee args))
      (hW.invoke callee args hlinked.agree hwithin)

theorem Sim.lifted (hW : W.Respects ctx ctx') (op : Prim) (args : List Ty) :
    W.Sim naming (.eq Ty) (liftM (Comparison.lifted ctx.invoke op args))
      (liftM (Comparison.lifted ctx'.invoke op args)) := by
  refine ⟨?_, ?_⟩
  · intro locals store
    rw [within_lift]
    exact hW.grows_lifted store op args
  · intro later _ locals store locals' store' hlinked hwithin
    rw [within_lift] at hwithin
    exact ends_of_answers hlinked (hW.held_grows (hW.grows_lifted store op args))
      (hW.lifted op args hlinked.agree hwithin)

-- A function that only one side knows of stops the other side, which has to be
-- free to.
theorem Sim.requireFunc (hW : W.Respects ctx ctx') (func : String) {m m' : Annotate α}
    (hm : W.Sim naming P m m') :
    W.Sim naming P
      (do if !(← Session.isRegistered func) then throw (SpecializeError.unknownFunc func)
          m)
      (do if !(← Session.isRegistered func) then throw (SpecializeError.unknownFunc func)
          m') := by
  have houtcome : ∀ (n : Annotate α) (locals : Locals) (store : Store),
      Annotate.outcome
        (do if !(← Session.isRegistered func) then throw (SpecializeError.unknownFunc func)
            n) locals store =
        if store.funcs.contains func then n.outcome locals store
        else (.error (.unknownFunc func), store) := by
    intro n locals store
    rw [Annotate.outcome_bind, Annotate.outcome_lift, Session.outcome_isRegistered]
    cases NameMap.contains store.funcs func <;> rfl
  refine ⟨?_, ?_⟩
  · intro locals store
    rw [houtcome]
    split
    · exact hm.grows locals store
    · exact hW.grows_refl store
  · intro later hle locals store locals' store' hlinked hwithin
    rw [houtcome] at hwithin
    have hstore : W.within store := by
      split at hwithin
      · exact hW.within_of_grows (hm.grows locals store) hwithin
      · exact hwithin
    have hregistered := hW.registered func hlinked.agree hstore
    rw [houtcome, houtcome]
    cases hleft : store.funcs.contains func <;> cases hright : store'.funcs.contains func <;>
      simp only [hleft, hright, if_true, Bool.false_eq_true, if_false, reduceCtorEq,
        false_or] at hregistered hwithin ⊢
    · exact Or.inr (Or.inr ⟨hlinked.agree, hW.errors_of_alike (.refl _)⟩)
    · rcases m'.outcome locals' store' with ⟨f | b, last'⟩
      · exact Or.inl hregistered
      · exact hregistered
    · rcases m.outcome locals store with ⟨e | a, last⟩
      · exact Or.inr (Or.inl hregistered)
      · exact hregistered
    · exact hm.ends hle hlinked hwithin

end RankPoly.Comparison
