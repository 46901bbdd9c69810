import RankPoly.Proofs.Leaves
import RankPoly.Proofs.Session.Answer
import RankPoly.Proofs.Session.Outcome

namespace RankPoly

theorem Func.Alike.refl {literal : Const → Const → Prop} (hliteral : ∀ c, literal c c) (f : Func) :
    f.Alike Eq literal f where
  name := rfl
  params := ⟨List.forall₂_same.mpr fun _ _ => rfl, .refl hliteral _, optionRel_eq_iff.mpr rfl⟩
  body := Stmt.Alike.reflBlock (Expr.Alike.refl hliteral) f.body

theorem Func.Same.refl (f : Func) : f.Same f :=
  Func.Alike.refl Const.Same.refl f

-- All that an annotation does to the store is drawing names, adding wrappers
-- and making calls.
theorem Annotate.Leaving.of_leads {ctx : Annotate.Context} {leads : Store → Store → Prop}
    (htrans : ∀ {store between later}, leads store between → leads between later →
      leads store later)
    (hfresh : ∀ store name, leads store { store with fresh := (store.fresh.refresh name).2 })
    (hwrapper : ∀ store op, leads store (Session.withWrapper op store))
    (hinvoke : ∀ store callee args,
      leads store (Session.outcome (ctx.invoke callee args) store).2) (store : Store) :
    Annotate.Leaving (fun _ => leads store) (fun _ => leads store) (fun _ => True) ctx ctx :=
  .of_store rfl (fun name h => htrans h (hfresh _ name)) (fun op h => htrans h (hwrapper _ op))
    (fun _ => id) (fun _ _ _ => rfl) fun callee args h =>
    Outcome.leaves_iff.mpr (htrans h (hinvoke _ callee args))

theorem Func.annotate_leads {ctx : Annotate.Context} {leads : Store → Store → Prop}
    (hrefl : ∀ store, leads store store)
    (htrans : ∀ {store between later}, leads store between → leads between later →
      leads store later)
    (hfresh : ∀ store name, leads store { store with fresh := (store.fresh.refresh name).2 })
    (hwrapper : ∀ store op, leads store (Session.withWrapper op store))
    (hinvoke : ∀ store callee args,
      leads store (Session.outcome (ctx.invoke callee args) store).2)
    (func : Func) (args : List Ty) (store : Store) :
    leads store (Session.outcome (func.annotate ctx args) store).2 := by
  have hctx : Annotate.Leaving (fun _ => leads store) (fun _ => leads store) (fun _ => True) ctx
      ctx :=
    @Annotate.Leaving.of_leads ctx leads htrans hfresh hwrapper hinvoke store
  exact Outcome.leaves_iff.mp (Func.annotate_leaves hctx func args (hrefl store))

namespace Session

variable {settings : Settings} {P : Store → Prop}

-- What has to be shown of a property for every request to keep it, whether the
-- request fails or not.
structure Kept (settings : Settings) (P : Store → Prop) : Prop where
  counters : ∀ {store} counters, P store → P { store with counters }
  fresh : ∀ {store} fresh, store.fresh.next ≤ fresh.next → P store → P { store with fresh }
  wrapper : ∀ {store} op, P store → store.funcs.find? (wrapperName op) = none →
    P { store with funcs := store.funcs.insert (wrapperName op) (wrapper op) }
  remember : ∀ {store} callee args ty, P store → answer store.result? callee args = some ty →
    P { store with calls := (⟨callee, args⟩, ty) :: store.calls }
  keep : ∀ {store later depth waiting request func spec}, P store → P later →
    store.Grows later → later.specialization? request = none →
    store.funcs.find? request.func = some func →
    (∀ {store}, P store → ∀ callee args,
      P (outcome (invokeWith (specializeWithin settings depth (request :: waiting)) callee args)
        store).2) →
    outcome (build settings
      (invokeWith (specializeWithin settings depth (request :: waiting))) func request.args) store =
      (.ok spec, later) →
    P { later with built := (request, spec) :: later.built }

-- A step that the store grows by and that keeps a property.
def Leads (P : Store → Prop) (store later : Store) : Prop :=
  store.Grows later ∧ (P store → P later)

namespace Leads

variable {store between later : Store}

theorem refl (store : Store) : Leads P store store :=
  ⟨.refl store, id⟩

theorem trans (h : Leads P store between) (h' : Leads P between later) : Leads P store later :=
  ⟨h.1.trans h'.1, h'.2 ∘ h.2⟩

theorem withWrapper (hP : Kept settings P) (store : Store) (op : Prim) :
    Leads P store (Session.withWrapper op store) := by
  unfold Session.withWrapper
  split
  · exact .refl store
  · rename_i hname
    have hname : store.funcs.find? (wrapperName op) = none := by
      simpa [NameMap.contains] using hname
    exact ⟨.insert hname, fun h => hP.wrapper op h hname⟩

theorem fresh (hP : Kept settings P) (store : Store) (name : String) :
    Leads P store { store with fresh := (store.fresh.refresh name).2 } :=
  ⟨⟨id, id, by simp⟩, hP.fresh _ (by simp)⟩

theorem counters (hP : Kept settings P) (store : Store) (counters : Counters) :
    Leads P store { store with counters } :=
  ⟨⟨id, id, Nat.le_refl _⟩, hP.counters counters⟩

theorem andThen {α β : Type} {o : Outcome α} {k : α → Store → Outcome β}
    (h : Leads P store o.2) (hk : ∀ a later, o = (.ok a, later) → Leads P later (k a later).2) :
    Leads P store (o.andThen k).2 := by
  rcases o with ⟨error | a, later⟩
  · exact h
  · exact h.trans (hk a later rfl)

end Leads

private theorem found_of_andThen_keep {request : Request} {o : Outcome Specialization}
    {later : Store} {spec : Specialization}
    (h : (o.andThen fun built => outcome (Session.keep request built)) = (.ok spec, later)) :
    later.specialization? request = some spec := by
  rcases o with ⟨error | built, between⟩
  · cases h
  · rw [Outcome.andThen_ok, outcome_keep] at h
    split at h
    · rename_i known hknown
      cases h
      exact hknown
    · cases h
      simp [Store.specialization?]

-- A request that is served has its specialization kept from then on.
theorem specializeWithin_found {depth : Nat} {waiting : List Request} {request : Request}
    {store later : Store} {spec : Specialization}
    (h : outcome (specializeWithin settings depth waiting request) store = (.ok spec, later)) :
    later.specialization? request = some spec := by
  cases depth with
  | zero =>
      rw [outcome_specializeWithin_zero] at h
      split at h
      · rename_i known hknown
        cases h
        exact hknown
      · cases h
  | succ depth =>
      rw [outcome_specializeWithin_succ] at h
      split at h
      · rename_i known hknown
        cases h
        exact hknown
      · split at h
        · cases h
        · split at h
          · cases h
          · rename_i func _
            exact found_of_andThen_keep h

-- How a function behaves that serves requests: the store grows, and what is
-- served is kept.
structure Serves (P : Store → Prop) (specialize : Request → Session Specialization) : Prop where
  leads : ∀ request store, Leads P store (outcome (specialize request) store).2
  found : ∀ {request store spec later}, outcome (specialize request) store = (.ok spec, later) →
    later.specialization? request = some spec

theorem Serves.leads_joinResults {specialize : Request → Session Specialization}
    (h : Serves P specialize) (args : List Ty) :
    ∀ (members : List Closure) (joined : Ty) (store : Store),
      Leads P store (outcome (joinResults specialize args members joined) store).2
  | [], joined, store => .refl store
  | member :: rest, joined, store => by
      rw [outcome_joinResults_cons]
      refine (h.leads _ store).andThen fun spec later _ => ?_
      cases joined.combine spec.returnType with
      | error error => exact .refl later
      | ok joined => exact h.leads_joinResults args rest joined later

theorem Serves.joinResults_known {specialize : Request → Session Specialization}
    (h : Serves P specialize) (args : List Ty) :
    ∀ {members : List Closure} {joined ty : Ty} {store later : Store},
      outcome (joinResults specialize args members joined) store = (.ok ty, later) →
      joinKnown later.result? args members joined = some ty
  | [], joined, ty, store, later, hjoin => by
      cases hjoin
      rfl
  | member :: rest, joined, ty, store, later, hjoin => by
      obtain ⟨spec, between, joined', hspec, hcombine, hrest⟩ := yields_joinResults_cons hjoin
      have hgrows := (h.leads_joinResults args rest joined' between).1
      rw [hrest] at hgrows
      unfold joinKnown
      rw [Store.result?_eq, hgrows.built (h.found hspec)]
      simp only [Option.map_some, hcombine]
      exact h.joinResults_known args hrest

theorem Serves.leads_invokeWith (hP : Kept settings P)
    {specialize : Request → Session Specialization} (h : Serves P specialize) (store : Store)
    (callee : Ty) (args : List Ty) :
    Leads P store (outcome (invokeWith specialize callee args) store).2 := by
  rw [outcome_invokeWith]
  cases store.callType? ⟨callee, args⟩ with
  | some ty => exact .counters hP store _
  | none =>
      cases hmembers : callee.members? with
      | none => exact .refl store
      | some members =>
          refine (h.leads_joinResults args members .unknown store).andThen fun ty later hjoin => ?_
          refine ⟨⟨id, id, Nat.le_refl _⟩, fun hlater => hP.remember callee args ty hlater ?_⟩
          exact Option.bind_eq_some_iff.mpr ⟨members, hmembers, h.joinResults_known args hjoin⟩

theorem leads_build (hP : Kept settings P) {invoke : Ty → List Ty → Session Ty}
    (hinvoke : ∀ store callee args, Leads P store (outcome (invoke callee args) store).2)
    (func : Func) (args : List Ty) (store : Store) :
    Leads P store (outcome (build settings invoke func args) store).2 := by
  rw [outcome_build]
  refine Leads.andThen ?_ fun spec later _ => ?_
  · have hinferring : Leads P store (inferring store) := .counters hP store _
    refine hinferring.trans ?_
    exact Func.annotate_leads .refl .trans (.fresh hP) (.withWrapper hP) hinvoke func args _
  · rw [outcome_bind, outcome_runPass]
    refine Leads.andThen (.counters hP later _) fun spec' later' _ => ?_
    rw [outcome_runPass]
    exact .counters hP later' _

theorem serves_specializeWithin (hP : Kept settings P) (depth : Nat) :
    ∀ waiting, Serves P (specializeWithin settings depth waiting) := by
  induction depth with
  | zero =>
      refine fun waiting => ⟨fun request store => ?_, specializeWithin_found⟩
      rw [outcome_specializeWithin_zero]
      split
      · exact .counters hP store _
      · exact .refl store
  | succ depth ih =>
      refine fun waiting => ⟨fun request store => ?_, specializeWithin_found⟩
      rw [outcome_specializeWithin_succ]
      split
      · exact .counters hP store _
      · split
        · exact .refl store
        · split
          · exact .refl store
          · rename_i func hfunc
            have hinvoke := (ih (request :: waiting)).leads_invokeWith hP
            have hbuild := leads_build hP hinvoke func request.args store
            rcases hbuilt : outcome (build settings
              (invokeWith (specializeWithin settings depth (request :: waiting))) func
              request.args) store with ⟨error | spec, later⟩ <;> rw [hbuilt] at hbuild
            · exact hbuild
            · rw [Outcome.andThen_ok, outcome_keep]
              split
              · exact hbuild
              · rename_i hnew
                refine ⟨hbuild.1.trans (.keep hnew), fun hstore => ?_⟩
                exact hP.keep hstore (hbuild.2 hstore) hbuild.1 hnew hfunc
                  (fun h callee args => (hinvoke _ callee args).2 h) hbuilt

end Session

end RankPoly
