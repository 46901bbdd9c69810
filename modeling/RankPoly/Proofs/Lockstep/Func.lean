import RankPoly.Proofs.Lockstep.Stmt
import RankPoly.Proofs.Params

namespace RankPoly

namespace Annotate

-- The local that a parameter stands for, or the parameter itself if it has none.
def localOf (locals : Locals) (name : String) : String :=
  (NameMap.find? name locals.names).getD name

theorem localParams_eq (locals : Locals) (params : Params) :
    localParams locals params =
      { positional := params.positional.map (localOf locals)
        defaults := Params.renameDefaults params.defaults
          (params.positional.zip (params.positional.map (localOf locals)))
        varargs := params.varargs.map (localOf locals) } := by
  unfold localParams Params.rename localOf
  cases params.varargs <;> simp

-- What is done once the parameters are bound.
def finish (ctx : Context) (source : Func) (inputs : List Ty) (params : Params) :
    Annotate Specialization := do
  let body ← block ctx source.body
  let locals ← get
  let (body, returnType) := withReturn body locals.returnType
  let name ← Session.refresh source.name
  return { name, source := source.name, params, body, inputs, returnType, env := locals.env }

-- Binds parameters, and gives them their new names.
def enter (bound : List (String × Ty)) (params : Params) : Annotate Params := do
  bindParams bound
  return localParams (← get) params

theorem func_eq (ctx : Context) (source : Func) (args : List Ty) :
    func ctx source args =
      match source.params.bind args with
      | .error error => throw (.shape (.binding error))
      | .ok binding => enter binding.params source.params >>= finish ctx source binding.inputs := by
  unfold func enter finish
  cases source.params.bind args with
  | error error => rfl
  | ok binding => simp only [bind_assoc, pure_bind]

-- Once its parameters are bound, each of them has a local.
theorem bindParams_bound {name : String} :
    ∀ {bound : List (String × Ty)} {locals locals' : Locals} {store later : Store} {u : Unit},
      Yields (bindParams bound) locals store u locals' later →
      (name ∈ bound.map Prod.fst ∨ ∃ known, locals.names.find? name = some known) →
      ∃ known, locals'.names.find? name = some known
  | [], locals, locals', store, later, u, h, hname => by
      obtain ⟨-, rfl, -⟩ := yields_pure.mp h
      simpa using hname
  | (param, ty) :: rest, locals, locals', store, later, u, h, hname => by
      unfold bindParams at h
      obtain ⟨known, middle, between, hrename, h⟩ := yields_bind.mp h
      obtain ⟨widened, middle', between', hwiden, hrest⟩ := yields_bind.mp h
      obtain ⟨-, rfl, -⟩ := yields_rename.mp hrename
      obtain ⟨-, rfl, -⟩ := yields_widen.mp hwiden
      refine bindParams_bound hrest ?_
      simp only [NameMap.find?_insert]
      by_cases heq : param = name
      · exact Or.inr ⟨known, if_pos heq⟩
      · simp only [List.map_cons, List.mem_cons, Ne.symm heq, false_or] at hname
        simpa only [if_neg heq] using hname

end Annotate

namespace Likeness

-- Values that correspond under all names that will ever correspond, as long as
-- no name gets two counterparts.
def unique {α : Type} (rel : Naming → α → α → Prop) (hrefl : ∀ a, rel Eq a a) : Likeness α where
  rel naming a b := ∀ later, naming ≤ later → Relator.BiUnique later → rel later a b
  refl a := by
    intro later hle hlater
    have heq : later = Eq := by
      funext m n
      refine propext ⟨fun hmn => hlater.2 (hle m m rfl) hmn, ?_⟩
      rintro rfl
      exact hle m m rfl
    exact heq ▸ hrefl a
  mono hle h last hlast := h last (hle.trans hlast)

def params (c : Correspondence) : Likeness Params :=
  .unique (fun naming => Params.Alike naming c.literal) fun _ =>
    ⟨List.forall₂_same.mpr fun _ _ => rfl, .refl c.literal_refl _, optionRel_eq_iff.mpr rfl⟩

def env : Likeness (NameMap Ty) :=
  .unique (fun naming => NameMap.Alike naming Eq) (NameMap.Alike.refl fun _ => rfl)

def specialization (c : Correspondence) : Likeness Specialization :=
  .unique (fun naming => Specialization.Alike naming c.literal) fun x =>
    have hunique : Relator.BiUnique (Eq : Naming) :=
      ⟨fun _ _ _ h h' => h.trans h'.symm, fun _ _ _ h h' => h.symm.trans h'⟩
    ⟨rfl, rfl, (params c).refl x.params Eq le_rfl hunique,
      List.forall₂_same.mpr fun _ _ => (stmt c).refl _, rfl, rfl, .refl (fun _ => rfl) _⟩

end Likeness

namespace Comparison

open Annotate (Context)

variable {W : Comparison} {naming : Naming} {ctx ctx' : Context}

theorem Sim.bindParams (hW : W.Respects ctx ctx') {naming : Naming} :
    ∀ {xs ys : List (String × Ty)},
      List.Forall₂ (Params.BoundAlike W.toCorrespondence) xs ys →
      W.Sim naming (.eq Unit) (Annotate.bindParams xs) (Annotate.bindParams ys)
  | _, _, .nil => .value hW rfl
  | (m, ty) :: xs, (_, _) :: ys, .cons ⟨rfl, rfl⟩ h => by
      unfold Annotate.bindParams
      refine .bind hW (.rename hW m) ?_
      intro _ _ known known' hknown
      refine .bind hW (.widen hW hknown ty) fun _ _ _ _ => ?_
      exact bindParams hW h

-- Parameters that all have locals correspond once they are renamed.
theorem Linked.localParams {locals locals' : Locals} {store store' : Store}
    (hlinked : W.Linked naming locals store locals' store') {x y : Params}
    (h : x.Alike W.naming W.literal y)
    (hbound : ∀ name ∈ x.names, ∃ known, locals.names.find? name = some known) :
    (Likeness.params W.toCorrespondence).rel naming (Annotate.localParams locals x)
      (Annotate.localParams locals' y) := by
  intro later hle hlater
  have hlocal : ∀ name ∈ x.names, ∀ name', W.naming name name' →
      later (Annotate.localOf locals name) (Annotate.localOf locals' name') := by
    rintro name hname _ rfl
    obtain ⟨known, hknown⟩ := hbound name hname
    have hnames := hlinked.names name
    unfold Annotate.localOf
    rw [hknown] at hnames ⊢
    generalize locals'.names.find? (W.var name) = known' at hnames ⊢
    cases hnames with
    | some hmn => exact hle _ _ hmn
  rw [Annotate.localParams_eq, Annotate.localParams_eq]
  refine ⟨?_, ?_, ?_⟩
  · refine Params.renamed_alike h.positional fun name hname => hlocal name ?_
    exact List.mem_append_left _ hname
  · refine .ofList hlater (Params.renamedDefaults_alike h.defaults h.positional ?_)
    exact fun name hname => hlocal name (List.mem_append_left _ hname)
  · have hvarargs := h.varargs
    have hrest : ∀ name, x.varargs = some name → name ∈ x.names := by
      intro name hname
      simp [Params.names, hname]
    generalize x.varargs = rest at hvarargs hrest
    generalize y.varargs = rest' at hvarargs
    cases hvarargs with
    | none => exact .none
    | some hname => exact .some (hlocal _ (hrest _ rfl) _ hname)

theorem Sim.enter (hW : W.Respects ctx ctx') {bound bound' : List (String × Ty)} {x y : Params}
    (hbound : List.Forall₂ (Params.BoundAlike W.toCorrespondence) bound bound')
    (h : x.Alike W.naming W.literal y) (hnames : bound.map Prod.fst = x.names) :
    W.Sim naming (.params W.toCorrespondence) (Annotate.enter bound x)
      (Annotate.enter bound' y) := by
  have hbind : W.Sim naming (.eq Unit) _ _ := .bindParams hW hbound
  have hstore : ∀ locals store,
      ((Annotate.enter bound x).outcome locals store).2 =
        ((Annotate.bindParams bound).outcome locals store).2 := by
    intro locals store
    unfold Annotate.enter
    rw [Annotate.outcome_bind]
    rcases (Annotate.bindParams bound).outcome locals store with ⟨error | _, later⟩ <;> rfl
  refine ⟨fun locals store => hstore locals store ▸ hbind.grows locals store, ?_⟩
  intro later hle locals store locals' store' hlinked hwithin
  have hfirst := hbind.ends hle hlinked (hstore locals store ▸ hwithin)
  unfold Ends Annotate.enter
  rw [Annotate.outcome_bind, Annotate.outcome_bind]
  refine hfirst.andThen ?_
  rintro ⟨_, middle⟩ between ⟨_, middle'⟩ between' hleft - ⟨next, hnext, hlinked', -⟩
  refine ⟨next, hnext, hlinked', hlinked'.localParams h fun name hname => ?_⟩
  exact Annotate.bindParams_bound hleft (Or.inl (hnames ▸ hname))

theorem Sim.finish (hW : W.Respects ctx ctx') {f g : Func} (h : f.Alike W.naming W.literal g)
    (hasked : W.asked f.name g.name) (inputs : List Ty) {x y : Params}
    (hparams : (Likeness.params W.toCorrespondence).rel naming x y) :
    W.Sim naming (.specialization W.toCorrespondence) (Annotate.finish ctx f inputs x)
      (Annotate.finish ctx' g inputs y) := by
  unfold Annotate.finish
  refine .bind hW (.block hW _ _ _ h.body) ?_
  intro _ hle₁ body body' hbody
  refine .get_bind
    (.on (.pair (.eq (Option Ty)) .env) fun locals => (locals.returnType, locals.env)) ?_ ?_
  · intro _ _ locals store locals' store' hlinked
    exact ⟨hlinked.returnType, fun later hle hlater => hlinked.env.mono hle hlater⟩
  rintro _ hle₂ locals locals' ⟨hreturn, henv⟩
  rw [← h.name] at hasked
  rw [← h.name, ← show locals.returnType = locals'.returnType from hreturn]
  dsimp only
  refine .bind hW (.refresh hW hasked) ?_
  intro _ hle₃ name name' hname
  refine .value hW ?_
  intro later hle hlater
  have hbody : List.Forall₂ (TypedStmt.Alike later W.literal) body body' :=
    (Likeness.list (.stmt W.toCorrespondence)).mono ((hle₂.trans hle₃).trans hle) hbody
  have hle₁ : naming ≤ later := ((hle₁.trans hle₂).trans hle₃).trans hle
  refine ⟨hle _ _ hname, rfl, hparams later hle₁ hlater, ?_, rfl, ?_,
    henv later (hle₃.trans hle) hlater⟩
  · cases locals.returnType with
    | some ty => exact hbody
    | none => exact List.rel_append hbody (.cons (.ret (.const (W.literal_refl _))) .nil)
  · cases locals.returnType <;> rfl

theorem Sim.func (hW : W.Respects ctx ctx') {f g : Func} (h : f.Alike W.naming W.literal g)
    (hasked : W.asked f.name g.name) (args : List Ty) :
    W.Sim naming (.specialization W.toCorrespondence) (Annotate.func ctx f args)
      (Annotate.func ctx' g args) := by
  rw [Annotate.func_eq, Annotate.func_eq]
  rcases h.params.bind args with
    ⟨binding, binding', hf, hg, hbound, hinputs⟩ | ⟨error, error', hf, hg, herror⟩
  · rw [hf, hg]
    dsimp only
    rw [hinputs]
    refine .bind hW (.enter hW hbound h.params (Params.bind_names hf)) ?_
    intro _ _ x y hxy
    exact .finish hW h hasked _ hxy
  · rw [hf, hg]
    exact .failure hW herror

-- What two annotations of functions that are alike give.
structure Annotated (W : Comparison) (spec : Specialization) (later : Store)
    (spec' : Specialization) (later' : Store) : Prop where
  agree : W.agree later later'
  alike : ∃ naming : Naming, Relator.BiUnique naming ∧
    (∀ m n, naming m n → Fresh.Generated m ∧ Fresh.Generated n) ∧
    spec.Alike naming W.literal spec'
  held : ∃ naming : Naming, Relator.BiUnique naming ∧ (∀ m n, naming m n → W.held later m n) ∧
    spec.Alike naming W.literal spec'

theorem outcome_annotate (ctx : Context) (f : Func) (args : List Ty) (store : Store) :
    Session.outcome (f.annotate ctx args) store =
      ((Annotate.func ctx f args).outcome {} store).andThen fun result later =>
        (.ok result.1, later) := by
  unfold Func.annotate
  rw [StateT.run'_eq, map_eq_pure_bind, Session.outcome_bind]
  rfl

theorem outcome_annotate_store (ctx : Context) (f : Func) (args : List Ty) (store : Store) :
    (Session.outcome (f.annotate ctx args) store).2 =
      ((Annotate.func ctx f args).outcome {} store).2 := by
  rw [outcome_annotate]
  rcases (Annotate.func ctx f args).outcome {} store with ⟨error | result, later⟩ <;> rfl

-- Where two runs start, no names correspond.
theorem Linked.start (W : Comparison) {store store' : Store} (hagree : W.agree store store') :
    W.Linked (fun _ _ => False) {} store {} store' where
  unique := ⟨fun _ _ _ h => h.elim, fun _ _ _ h => h.elim⟩
  drawn h := h.elim
  held h := h.elim
  names _ := .none
  env := ⟨fun h => h.elim, (nomatch ·), (nomatch ·)⟩
  sorted := ⟨List.Pairwise.nil, List.Pairwise.nil⟩
  returnType := rfl
  agree := hagree

theorem Respects.annotate (hW : W.Respects ctx ctx') {f g : Func}
    (h : f.Alike W.naming W.literal g) (hasked : W.asked f.name g.name) (args : List Ty)
    (store store' : Store) (hagree : W.agree store store')
    (hwithin : W.within (Session.outcome (f.annotate ctx args) store).2) :
    W.Matched W.Annotated (Session.outcome (f.annotate ctx args) store)
      (Session.outcome (g.annotate ctx' args) store') := by
  have hsim : W.Sim (fun _ _ => False) _ _ _ := .func hW h hasked args
  rw [outcome_annotate_store] at hwithin
  rw [outcome_annotate, outcome_annotate]
  refine (hsim.ends le_rfl (.start W hagree) hwithin).andThen ?_
  rintro ⟨spec, locals⟩ later ⟨spec', locals'⟩ later' - - ⟨naming, -, hlinked, halike⟩
  have halike := halike naming le_rfl hlinked.unique
  refine ⟨hlinked.agree, ⟨naming, hlinked.unique, fun m n hmn => ?_, halike⟩,
    naming, hlinked.unique, fun m n hmn => hlinked.held hmn, halike⟩
  exact ⟨(hlinked.drawn hmn).1.generated, (hlinked.drawn hmn).2.generated⟩

end Comparison

end RankPoly
