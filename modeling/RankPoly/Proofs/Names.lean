import RankPoly.Demo
import RankPoly.Proofs.Session.Drawn
import RankPoly.Proofs.Session.Elaborated

namespace RankPoly

open Session

-- All names in the specializations that are kept.
def Store.names (store : Store) : List String :=
  store.built.flatMap fun entry => entry.2.names

-- A name that has been drawn, but is in no specialization that is kept.
def Store.Spare (store : Store) (name : String) : Prop :=
  store.fresh.Drew name ∧ name ∉ store.names

-- No name stands in two places, and all of them have been drawn.
structure Store.Apart (store : Store) : Prop where
  nodup : store.names.Nodup
  drawn : ∀ name ∈ store.names, store.fresh.Drew name

@[simp] theorem Store.names_withWrapper (op : Prim) (store : Store) :
    (withWrapper op store).names = store.names := by
  unfold names
  rw [withWrapper_built]

namespace Store.Spare

variable {store : Store} {known : String}

theorem fresh (h : store.Spare known) {fresh : Fresh} (hle : store.fresh.next ≤ fresh.next) :
    Store.Spare { store with fresh } known :=
  ⟨h.1.mono hle, h.2⟩

theorem withWrapper (h : store.Spare known) (op : Prim) :
    (Session.withWrapper op store).Spare known := by
  unfold Store.Spare
  rwa [Session.withWrapper_fresh, names_withWrapper]

end Store.Spare

namespace Store.Apart

variable {store : Store}

theorem fresh (h : store.Apart) {fresh : Fresh} (hle : store.fresh.next ≤ fresh.next) :
    Apart { store with fresh } :=
  ⟨h.nodup, fun name hname => (h.drawn name hname).mono hle⟩

theorem withWrapper (h : store.Apart) (op : Prim) : (Session.withWrapper op store).Apart := by
  obtain ⟨hnodup, hdrawn⟩ := h
  constructor <;> simpa only [names_withWrapper, Session.withWrapper_fresh]

-- A name that is drawn is new.
theorem spare_refresh (h : store.Apart) (name : String) :
    Store.Spare { store with fresh := (store.fresh.refresh name).2 }
      (store.fresh.refresh name).1 :=
  ⟨Fresh.drew_refresh _ _, fun hmem => Fresh.not_drew_refresh _ _ (h.drawn _ hmem)⟩

theorem keep (h : store.Apart) {request : Request} {spec : Specialization}
    (hnodup : spec.names.Nodup) (hspare : ∀ name ∈ spec.names, store.Spare name) :
    Apart { store with built := (request, spec) :: store.built } where
  nodup := by
    refine List.nodup_append.mpr ⟨hnodup, h.nodup, ?_⟩
    rintro name hname _ hother rfl
    exact (hspare name hname).2 hother
  drawn name hname := by
    rcases List.mem_append.mp hname with hname | hname
    · exact (hspare name hname).1
    · exact h.drawn name hname

end Store.Apart

section Session

variable {limits : Limits} {depth : Nat} {waiting : List Request}

-- The names in a specialization have all been drawn in the course of its annotation.
theorem undrawn_of_yields {source : Func} {args : List Ty} {spec : Specialization}
    {locals : Locals} {store later : Store}
    (h : Annotate.Yields (Annotate.func (contextOf limits depth waiting) source args) {} store spec
      locals later) {name : String} (hname : name ∈ spec.names) : ¬store.fresh.Drew name := by
  have hctx : Annotate.Holding (fun later => store.fresh.next ≤ later.fresh.next)
      (fun _ known => ¬store.fresh.Drew known) (contextOf limits depth waiting) :=
    { fresh := fun _ h => Nat.le_succ_of_le h
      addWrapper := fun op h => by rwa [withWrapper_fresh]
      invoke := fun {_} callee args h => h.trans (grows_invokeWith _ depth waiting callee args _).fresh
      grows_invoke := fun store callee args =>
        (grows_invokeWith _ depth waiting callee args store).fresh
      held_refresh := fun name h hdrew => Fresh.not_drew_refresh _ _ (hdrew.mono h)
      held_fresh := fun _ h => h
      held_wrapper := fun _ h => h
      held_invoke := fun _ _ h => h }
  exact ((Annotate.func_holds hctx le_rfl h).2.2 name hname).2

-- A name that was drawn for something else gets into no specialization.
theorem kept_spare (limits : Limits) (name : String) :
    Kept (.ofLimits limits) fun store => store.Spare name where
  counters _ h := h
  fresh _ hle h := h.fresh hle
  wrapper _ h _ := h
  remember _ _ _ h _ := h
  keep := by
    intro store later depth waiting request func spec hstore hlater _ _ _ _ hbuild
    obtain ⟨last, hannotate, rfl⟩ := annotate_of_build hbuild
    obtain ⟨locals, hyields⟩ := Annotate.yields_of_annotate hannotate
    refine ⟨hlater.1, fun hmem => ?_⟩
    rcases List.mem_append.mp hmem with hmem | hmem
    · exact undrawn_of_yields hyields hmem hstore.1
    · exact hlater.2 hmem

theorem kept_apart (limits : Limits) : Kept (.ofLimits limits) Store.Apart where
  counters _ h := ⟨h.nodup, h.drawn⟩
  fresh _ hle h := h.fresh hle
  wrapper _ h _ := ⟨h.nodup, h.drawn⟩
  remember _ _ _ h _ := ⟨h.nodup, h.drawn⟩
  keep := by
    intro store later depth waiting request func spec hstore hlater _ _ _ hinvoke hbuild
    have hctx : Annotate.Holding Store.Apart Store.Spare
        (contextOf limits depth (request :: waiting)) :=
      { fresh := fun name h => h.fresh (by simp)
        addWrapper := fun op h => h.withWrapper op
        invoke := fun callee args h => hinvoke h callee args
        grows_invoke := fun store callee args =>
          (grows_invokeWith _ depth (request :: waiting) callee args store).fresh
        held_refresh := fun name h => h.spare_refresh name
        held_fresh := fun name h => h.fresh (by simp)
        held_wrapper := fun op h => h.withWrapper op
        held_invoke := fun {_ known} callee args h =>
          ((serves_specializeWithin (kept_spare limits known) depth
            (request :: waiting)).leads_invokeWith (kept_spare limits known) _ callee args).2 h }
    obtain ⟨last, hannotate, rfl⟩ := annotate_of_build hbuild
    obtain ⟨locals, hyields⟩ := Annotate.yields_of_annotate hannotate
    have hinferring : (inferring store).Apart := ⟨hstore.nodup, hstore.drawn⟩
    obtain ⟨-, hnodup, hnames⟩ := Annotate.func_holds hctx hinferring hyields
    exact hlater.keep hnodup fun name hname => (hnames name hname).2

theorem lasting_apart (limits : Limits) : Lasting (.ofLimits limits) fun _ => Store.Apart where
  start := ⟨.nil, nofun⟩
  kept _ := kept_apart limits
  register := by
    intro defs store func known later h hregister
    rcases register_ok hregister with rfl | ⟨-, rfl⟩
    · exact h
    · exact ⟨h.nodup, h.drawn⟩

end Session

-- In a session without passes that change something, no name stands in two places: not in
-- two specializations, and not twice in one of them. Each specialization spells its
-- function, where no two variables share a local.
theorem names_apart {limits : Limits} {defs : List Func} {store : Store}
    (hstore : Reachable (.ofLimits limits) defs store) :
    store.names.Nodup ∧ ∀ request spec, (request, spec) ∈ store.built →
      ∃ func names, store.funcs.find? request.func = some func ∧
        func.Elaborates (NodeTyped store) names spec :=
  ⟨((lasting_apart limits).of_reachable hstore).nodup,
    (upheld_elaborated.of_reachable hstore).2⟩

-- The functions and variables are called what names that are drawn look like. One request
-- is refused after it has drawn some.
theorem dotted_names_apart :
    let pair := Demo.define "x.1" ["x", "x.3"]
      [.assign (.var "x") (.prim .add [.var "x", .var "x.3"]), .ret (.tuple [.var "x", .var "x.3"])]
    let twice := Demo.define "x" ["x.1"]
      [.ret (.invoke (Demo.named "x.1") [.var "x.1", .var "x.1"])]
    let broken := Demo.define "x.2" ["x.1", "x.1"] [.ret (.var "x")]
    let ops : List Operation := [.register pair, .register twice, .register broken,
      .specialize "x.2" [.scalar .i64, .scalar .i64], .specialize "x" [.scalar .i64],
      .specialize "x" [.scalar .f32]]
    let store := ops.foldl (Operation.after {}) {}
    store.names = ["x.11", "x.7", "x.10", "x.8", "x.9", "x.6", "x.2", "x.5", "x.3", "x.4"] ∧
      store.names.Nodup ∧ ∀ request spec, (request, spec) ∈ store.built →
        ∃ func names, store.funcs.find? request.func = some func ∧
          func.Elaborates (NodeTyped store) names spec := by
  intro pair twice broken ops store
  obtain ⟨defs, hstore⟩ := Reachable.run ops (.start : Reachable (.ofLimits {}) [] {})
  exact ⟨by decide +kernel, names_apart hstore⟩

end RankPoly
