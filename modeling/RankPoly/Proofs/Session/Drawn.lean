import RankPoly.Proofs.Elaboration.Func
import RankPoly.Proofs.Fresh
import RankPoly.Proofs.Lockstep.Func

namespace RankPoly

-- All names that are drawn for a specialization: its own, and those of its locals.
def Specialization.names (spec : Specialization) : List String :=
  spec.name :: spec.env.keys

namespace Annotate

-- What is held of the names that an annotation draws, when it draws them and from then on,
-- as long as the store is as it should be.
structure Holding (P : Store → Prop) (held : Store → String → Prop) (ctx : Context) : Prop where
  fresh : ∀ {store} (name : String), P store →
    P { store with fresh := (store.fresh.refresh name).2 }
  addWrapper : ∀ {store} op, P store → P (Session.withWrapper op store)
  invoke : ∀ {store} callee args, P store →
    P (Session.outcome (ctx.invoke callee args) store).2
  grows_invoke : ∀ store callee args,
    store.fresh.next ≤ (Session.outcome (ctx.invoke callee args) store).2.fresh.next
  held_refresh : ∀ {store} (name : String), P store →
    held { store with fresh := (store.fresh.refresh name).2 } (store.fresh.refresh name).1
  held_fresh : ∀ {store known} (name : String), held store known →
    held { store with fresh := (store.fresh.refresh name).2 } known
  held_wrapper : ∀ {store known} op, held store known → held (Session.withWrapper op store) known
  held_invoke : ∀ {store known} callee args, held store known →
    held (Session.outcome (ctx.invoke callee args) store).2 known

variable {P : Store → Prop} {held : Store → String → Prop} {ctx : Context}
  {locals locals' : Locals} {store later : Store}

-- A run that is compared with itself, to see which names it has drawn.
def drawing (P : Store → Prop) (held : Store → String → Prop) : Comparison :=
  { Correspondence.same with
    agree := fun store store' => store = store' ∧ P store
    grows := fun store later => ∀ name, held store name → held later name
    within := fun _ => True
    held := fun store name _ => held store name
    leftFree := fun _ => True
    rightFree := fun _ => True }

theorem Holding.answers (hctx : Holding P held ctx) (hstore : P store) (callee : Ty)
    (args : List Ty) :
    (drawing P held).Answers store store (Session.outcome (ctx.invoke callee args) store)
      (Session.outcome (ctx.invoke callee args) store) := by
  have hlater := hctx.invoke callee args hstore
  have hgrows := hctx.grows_invoke store callee args
  generalize Session.outcome (ctx.invoke callee args) store = o at hlater hgrows
  rcases o with ⟨error | ty, later⟩
  · exact Or.inl trivial
  · exact ⟨rfl, ⟨rfl, hlater⟩, hgrows, hgrows⟩

theorem Holding.respects (hctx : Holding P held ctx) : (drawing P held).Respects ctx ctx where
  grows_refl _ _ h := h
  grows_trans h h' name hname := h' name (h name hname)
  within_of_grows _ _ := trivial
  grows_fresh _ name _ := hctx.held_fresh name
  grows_invoke _ callee args _ := hctx.held_invoke callee args
  grows_lifted _ op args _ hknown := by
    rw [Comparison.outcome_lifted]
    exact hctx.held_invoke _ _ (hctx.held_wrapper op hknown)
  agree_fresh := by
    rintro store _ name name' ⟨rfl, hstore⟩
    exact ⟨rfl, hctx.fresh name hstore⟩
  asked_var _ := trivial
  held_refresh := by
    rintro store _ name _ - ⟨-, hstore⟩
    exact hctx.held_refresh name hstore
  held_grows h := h _
  errors_of_alike h := h
  registered := by
    rintro store _ func ⟨rfl, -⟩ -
    exact Or.inl rfl
  invoke := by
    rintro store _ callee args ⟨rfl, hstore⟩ -
    exact hctx.answers hstore callee args
  lifted := by
    rintro store _ op args ⟨rfl, hstore⟩ -
    rw [Comparison.outcome_lifted]
    exact (hctx.answers (hctx.addWrapper op hstore) _ args).of_withWrapper
  limit_lt h := (Nat.lt_irrefl _ h).elim
  limit_gt h := (Nat.lt_irrefl _ h).elim

theorem func_holds (hctx : Holding P held ctx) {source : Func} {args : List Ty}
    {spec : Specialization} (hstore : P store)
    (h : Yields (func ctx source args) {} store spec locals' later) :
    P later ∧ spec.names.Nodup ∧ ∀ name ∈ spec.names, later.fresh.Drew name ∧ held later name := by
  obtain ⟨binding, entered, middle, body, between, -, hparams, hblock, rfl, rfl⟩ := yields_func h
  have hW := hctx.respects
  have hbound : List.Forall₂ (Params.BoundAlike Correspondence.same) binding.params
      binding.params := List.forall₂_same.mpr fun _ _ => ⟨rfl, rfl⟩
  have hbody := Stmt.Alike.reflBlock (Expr.Alike.refl Const.Same.refl) source.body
  have hentered := (Comparison.Sim.bindParams hW hbound).ends le_rfl
    (.start (drawing P held) ⟨rfl, hstore⟩) trivial
  unfold Yields at hparams hblock
  rw [hparams] at hentered
  obtain ⟨naming, -, hentered, -⟩ := hentered
  have hlinked := (Comparison.Sim.block hW naming _ _ hbody).ends le_rfl hentered trivial
  rw [hblock] at hlinked
  obtain ⟨naming', -, hlinked, -⟩ := hlinked
  have hbetween := hlinked.agree.2
  have hlocal : ∀ known ∈ locals'.env.keys, between.fresh.Drew known ∧ held between known := by
    intro known hknown
    obtain ⟨other, hother⟩ := hlinked.env.left hknown
    exact ⟨(hlinked.drawn hother).1, hlinked.held hother⟩
  refine ⟨hctx.fresh source.name hbetween, List.nodup_cons.mpr ⟨fun hmem => ?_, ?_⟩,
    List.forall_mem_cons.mpr ⟨⟨Fresh.drew_refresh _ _, ?_⟩, fun known hknown => ?_⟩⟩
  · exact Fresh.not_drew_refresh _ _ (hlocal _ hmem).1
  · exact hlinked.sorted.1.nodup
  · exact hctx.held_refresh source.name hbetween
  · obtain ⟨hdrew, hheld⟩ := hlocal known hknown
    exact ⟨hdrew.mono (by simp), hctx.held_fresh source.name hheld⟩

end Annotate

end RankPoly
