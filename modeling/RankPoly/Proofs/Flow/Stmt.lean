import RankPoly.Proofs.Elaboration.Stmt
import RankPoly.Proofs.Flow.Expr

namespace RankPoly.Annotate

open Ty (AllParts)

variable {p bound : Ty → Prop} {P : Store → Prop} {ctx : Context} {locals locals' : Locals}
  {store later : Store}

-- A run in the course of which variables keep their locals, types are only widened,
-- and what is known stays of the wanted kind.
structure Moves (p bound : Ty → Prop) (P : Store → Prop) (locals : Locals) (store : Store)
    (locals' : Locals) (later : Store) : Prop where
  held : Held p bound P locals' later
  grows : store.Grows later
  naming : locals.naming ≤ locals'.naming
  widens : locals.Widens locals'
  sorted : locals.env.Sorted → locals'.env.Sorted
  returned : (∀ ty ∈ locals.returnType, AllParts p ty) →
    ∀ ty ∈ locals'.returnType, AllParts p ty

namespace Moves

theorem refl (h : Held p bound P locals store) : Moves p bound P locals store locals store :=
  ⟨h, .refl store, le_rfl, .refl locals, id, id⟩

theorem trans {middle : Locals} {between : Store} (h : Moves p bound P locals store middle between)
    (h' : Moves p bound P middle between locals' later) :
    Moves p bound P locals store locals' later where
  held := h'.held
  grows := h.grows.trans h'.grows
  naming := h.naming.trans h'.naming
  widens := h.widens.trans h'.widens
  sorted := h'.sorted ∘ h.sorted
  returned := h'.returned ∘ h.returned

theorem of_advances (h : Held p bound P locals store)
    (hadvances : Advances P locals store locals' later) :
    Moves p bound P locals store locals' later := by
  cases hadvances.locals_eq
  exact ⟨h.advance hadvances, hadvances.grows, le_rfl, .refl locals, id, id⟩

end Moves

theorem condition_flows (hctx : Flowing p bound P ctx) {e : Expr} {t : TypedExpr}
    (hheld : Held p bound P locals store)
    (h : Yields (condition ctx e) locals store t locals' later) :
    Advances P locals store locals' later ∧ t.Reads p locals.env :=
  expr_flows hctx e hheld (yields_condition h).1

theorem localFor_moves (hctx : Flowing p bound P ctx) {name known : String}
    (hheld : Held p bound P locals store)
    (h : Yields (localFor name) locals store known locals' later) :
    Moves p bound P locals store locals' later ∧ locals'.env = locals.env ∧
      locals'.names.find? name = some known := by
  obtain ⟨hfound, rfl, rfl⟩ | ⟨hfree, hrename⟩ := yields_localFor.mp h
  · exact ⟨.refl hheld, rfl, hfound⟩
  · have hheld' := hheld.rename hctx hrename
    obtain ⟨rfl, rfl, rfl⟩ := yields_rename.mp hrename
    exact ⟨⟨hheld', ⟨id, id, by simp⟩, fun _ _ => NameMap.find?_insert_of_free hfree,
      ⟨.refl _, (Locals.Widens.refl locals).returnType⟩, id, id⟩, rfl,
      NameMap.find?_insert_self _ _ _⟩

-- A type that is joined into that of a variable only moves it up.
theorem widen_moves (hp : Regime p bound) {known : String} {ty widened : Ty} (hty : bound ty)
    (hheld : Held p bound P locals store)
    (h : Yields (widen known ty) locals store widened locals' later) :
    Moves p bound P locals store locals' later ∧ locals'.env.find? known = some widened ∧
      ty.Below widened ∧ (AllParts p ty → AllParts p widened) := by
  obtain ⟨hjoin, rfl, rfl⟩ := yields_widen.mp h
  -- What was known before, if anything, is below the join, and the join is of
  -- the wanted kind.
  have hwidened : bound widened ∧ ty.Below widened ∧ (AllParts p ty → AllParts p widened) ∧
      ∀ old, locals.env.find? known = some old → old.Below widened := by
    cases hknown : NameMap.find? known locals.env with
    | none =>
        simp only [hknown] at hjoin
        cases hjoin
        exact ⟨hty, ty.below_refl, id, nofun⟩
    | some old =>
        simp only [hknown] at hjoin
        have hold := hheld.env hknown
        obtain ⟨hbelow, hbelow'⟩ := Ty.below_combine hjoin
        refine ⟨hp.combine hjoin hold hty, hbelow', hp.combine_left hjoin hold, ?_⟩
        rintro _ ⟨⟩
        exact hbelow
  obtain ⟨hbound, hbelow, hparts, hknown⟩ := hwidened
  have hheld' : Held p bound P
      { locals with env := NameMap.insert known widened locals.env } later := by
    refine ⟨hheld.store, fun {name found} hfound => ?_⟩
    rw [NameMap.find?_insert] at hfound
    split at hfound
    · cases hfound
      exact hbound
    · exact hheld.env hfound
  have hwidens : locals.env.Widens (NameMap.insert known widened locals.env) := by
    intro name old hold
    unfold NameMap.Bounds
    rw [NameMap.find?_insert]
    split
    · rename_i heq
      exact ⟨widened, rfl, hknown old (heq ▸ hold)⟩
    · exact ⟨old, hold, old.below_refl⟩
  refine ⟨⟨hheld', .refl _, le_rfl, ⟨hwidens, (Locals.Widens.refl locals).returnType⟩, ?_, id⟩,
    NameMap.find?_insert_self _ _ _, hbelow, hparts⟩
  exact fun hsorted => hsorted.insert known widened

-- A local gets a type joined into its own.
theorem bind_moves (hctx : Flowing p bound P ctx) {name known : String} {ty widened : Ty}
    (hty : AllParts p ty) {middle : Locals} {between : Store}
    (hheld : Held p bound P locals store)
    (hlocal : Yields (localFor name) locals store known middle between)
    (h : Yields (widen known ty) middle between widened locals' later) :
    Moves p bound P locals store locals' later ∧ locals'.env.find? known = some widened ∧
      ty.Below widened ∧ AllParts p widened := by
  obtain ⟨hmoves, -, -⟩ := localFor_moves hctx hheld hlocal
  obtain ⟨hmoves', hfind, hbelow, hparts⟩ :=
    widen_moves hctx.regime (hctx.regime.of_parts hty) hmoves.held h
  exact ⟨hmoves.trans hmoves', hfind, hbelow, hparts hty⟩

theorem returns_moves (hp : Regime p bound) {ty : Ty} {u : Unit} (hty : AllParts p ty)
    (hheld : Held p bound P locals store)
    (h : Yields (returns ty) locals store u locals' later) :
    Moves p bound P locals store locals' later ∧
      ∃ bound ∈ locals'.returnType, ty.Below bound := by
  obtain ⟨widened, hjoin, rfl, rfl⟩ := yields_returns.mp h
  -- What has been returned before, if anything, is below the join as well.
  have hwidened : ty.Below widened ∧ (∀ old ∈ locals.returnType, old.Below widened) ∧
      ((∀ old ∈ locals.returnType, AllParts p old) → AllParts p widened) := by
    cases hreturned : locals.returnType with
    | none =>
        simp only [hreturned] at hjoin
        cases hjoin
        exact ⟨ty.below_refl, nofun, fun _ => hty⟩
    | some known =>
        simp only [hreturned] at hjoin
        obtain ⟨hbelow, hbelow'⟩ := Ty.below_combine hjoin
        refine ⟨hbelow', ?_, fun hparts => hp.stable.combine hjoin (hparts known rfl) hty⟩
        rintro _ ⟨⟩
        exact hbelow
  obtain ⟨hbelow, hknown, hparts⟩ := hwidened
  refine ⟨⟨⟨hheld.store, hheld.env⟩, .refl _, le_rfl, ⟨.refl _, fun old hold => ?_⟩, id,
    fun hreturned => ?_⟩, widened, rfl, hbelow⟩
  · exact ⟨widened, rfl, hknown old hold⟩
  · simpa using hparts hreturned

mutual

-- What is assigned to takes the value, and flows into the locals itself.
theorem target_flows (hctx : Flowing p bound P ctx) : ∀ (lhs : Expr) {rhs : Ty}
    {locals locals' : Locals} {store later : Store} {t : TypedExpr}, AllParts p rhs →
      Held p bound P locals store → Yields (target ctx lhs rhs) locals store t locals' later →
      Moves p bound P locals store locals' later ∧ t.Between p locals.env locals'.env ∧
        t.Takes Ty.Below rhs
  | .var name, rhs, locals, locals', store, later, t, hrhs, hheld, h => by
      obtain ⟨known, _, _, ty, hlocal, hwiden, rfl⟩ := yields_target_var h
      obtain ⟨hmoves, hfind, hbelow, hty⟩ := bind_moves hctx hrhs hheld hlocal hwiden
      refine ⟨hmoves, .var hty ⟨fun old hold => ?_, ty, hfind, ty.below_refl⟩, .var hbelow⟩
      obtain ⟨found, hfound, hold⟩ := hmoves.widens.env hold
      cases hfind.symm.trans hfound
      exact hold
  | .tuple parts, rhs, locals, locals', store, later, t, hrhs, hheld, h => by
      obtain ⟨elems, parts', rfl, hlength, htargets, rfl⟩ := yields_target_tuple h
      obtain ⟨hmoves, hparts, htakes⟩ :=
        targets_flow hctx parts hlength (Ty.allParts_tuple.mp hrhs).2 hheld htargets
      refine ⟨hmoves, .of_children ?_ hparts (by simp), .tuple htakes⟩
      refine Ty.allParts_tuple.mpr ⟨hctx.regime.stable.tuple _, fun ty hty => ?_⟩
      obtain ⟨part, hpart, rfl⟩ := List.mem_map.mp hty
      exact (hparts part hpart).ty
  | .index value selector, rhs, locals, locals', store, later, t, hrhs, hheld, h => by
      obtain ⟨value', _, _, selector', _, _, hvalue, -, hselector, hinto⟩ := yields_target_index h
      obtain ⟨slot, hslot, rfl, rfl, rfl⟩ := yields_storeInto hinto
      obtain ⟨hadvances, hv⟩ := expr_flows hctx value hheld hvalue
      cases hadvances.locals_eq
      obtain ⟨hadvances', hs⟩ := expr_flows hctx selector (hheld.advance hadvances) hselector
      have hadvances := hadvances.trans hadvances'
      cases hadvances.locals_eq
      have hslot := hctx.regime.stable.indexType hslot hv.ty
      refine ⟨.of_advances hheld hadvances, .of_children hslot ?_ (by simp), .index⟩
      exact List.forall_mem_cons.mpr ⟨hv.between, List.forall_mem_singleton.mpr hs.between⟩
  | .attribute value name, rhs, locals, locals', store, later, t, hrhs, hheld, h => by
      obtain ⟨value', field, _, hvalue, hfield, -, rfl⟩ := yields_target_attribute h
      obtain ⟨⟨fields, hfields, hty⟩, -, -⟩ := yields_fieldType hfield
      obtain ⟨hadvances, hv⟩ := expr_flows hctx value hheld hvalue
      cases hadvances.locals_eq
      have hparts := hv.ty
      rw [hfields] at hparts
      have hfield := (Ty.allParts_struct.mp hparts).2 _ (NameMap.mem_of_find? hty)
      refine ⟨.of_advances hheld hadvances, .of_children hfield ?_ (by simp), .attribute⟩
      exact List.forall_mem_singleton.mpr hv.between
  | .const _, _, _, _, _, _, _, _, _, h | .array _, _, _, _, _, _, _, _, _, h
  | .slice .., _, _, _, _, _, _, _, _, h | .prim .., _, _, _, _, _, _, _, _, h
  | .closure .., _, _, _, _, _, _, _, _, h | .invoke .., _, _, _, _, _, _, _, _, h
  | .map .., _, _, _, _, _, _, _, _, h | .fold .., _, _, _, _, _, _, _, _, h
  | .allPairs .., _, _, _, _, _, _, _, _, h => by
      unfold target at h
      exact (yields_throw h).elim
  termination_by structural lhs => lhs

theorem targets_flow (hctx : Flowing p bound P ctx) : ∀ (parts : List Expr) {elems : List Ty}
    {locals locals' : Locals} {store later : Store} {ts : List TypedExpr},
      elems.length = parts.length → (∀ elem ∈ elems, AllParts p elem) →
      Held p bound P locals store → Yields (targets ctx parts elems) locals store ts locals' later →
      Moves p bound P locals store locals' later ∧
        (∀ t ∈ ts, t.Between p locals.env locals'.env) ∧
        List.Forall₂ (TypedExpr.Takes Ty.Below) ts elems
  | [], [], locals, locals', store, later, ts, hlength, helems, hheld, h => by
      obtain ⟨rfl, rfl, rfl⟩ := yields_targets_nil h
      exact ⟨.refl hheld, List.forall_mem_nil _, .nil⟩
  | part :: parts, elem :: elems, locals, locals', store, later, ts, hlength, helems, hheld, h => by
      obtain ⟨t, _, _, ts, htarget, htargets, rfl⟩ := yields_targets_cons h
      obtain ⟨helem, helems⟩ := List.forall_mem_cons.mp helems
      obtain ⟨hmoves, ht, htake⟩ := target_flows hctx part helem hheld htarget
      obtain ⟨hmoves', hts, htakes⟩ :=
        targets_flow hctx parts (Nat.succ.inj hlength) helems hmoves.held htargets
      refine ⟨hmoves.trans hmoves', List.forall_mem_cons.mpr ⟨?_, fun t ht => ?_⟩,
        .cons htake htakes⟩
      · exact ht.widen (.refl _) hmoves'.widens.env
      · exact (hts t ht).widen hmoves.widens.env (.refl _)
  termination_by structural parts => parts

end

-- A merge of values that were read at two times, and that flow into what is known of
-- its variable at a third time.
structure MergeBetween (p : Ty → Prop) (before entered after : NameMap Ty)
    (merge : Merge TypedExpr) : Prop where
  left : merge.left.Between p before after
  right : merge.right.Between p entered after
  bounded : merge.Bounded Ty.Below after

theorem branchMerges_flow (hctx : Flowing p bound P ctx) : ∀ (merges : List (Merge Expr))
    {locals locals' : Locals} {store later : Store} {merges' : List (Merge TypedExpr)},
      Held p bound P locals store →
      Yields (branchMerges ctx merges) locals store merges' locals' later →
      Moves p bound P locals store locals' later ∧
        ∀ merge ∈ merges', MergeBetween p locals.env locals.env locals'.env merge
  | [], locals, locals', store, later, merges', hheld, h => by
      obtain ⟨rfl, rfl, rfl⟩ := yields_branchMerges_nil h
      exact ⟨.refl hheld, List.forall_mem_nil _⟩
  | merge :: merges, locals, locals', store, later, merges', hheld, h => by
      obtain ⟨left, _, _, right, _, _, var, _, _, both, _, _, _, rest, hleft, hright, hlocal, hboth,
        hwiden, hrest, rfl⟩ := yields_branchMerges_cons h
      obtain ⟨hadvances, hl⟩ := expr_flows hctx merge.left hheld hleft
      cases hadvances.locals_eq
      obtain ⟨hadvances', hr⟩ := expr_flows hctx merge.right (hheld.advance hadvances) hright
      have hadvances := hadvances.trans hadvances'
      cases hadvances.locals_eq
      -- The variable takes what both values join to.
      obtain ⟨hbelow, hbelow'⟩ := Ty.below_combine hboth
      have hvalue := hctx.regime.stable.combine hboth hl.ty hr.ty
      obtain ⟨hmoves, hfind, hbound, -⟩ :=
        bind_moves hctx hvalue (hheld.advance hadvances) hlocal hwiden
      have hmoves := (Moves.of_advances hheld hadvances).trans hmoves
      obtain ⟨hmoves', hmerges⟩ := branchMerges_flow hctx merges hmoves.held hrest
      have hwidens := (hmoves.trans hmoves').widens.env
      refine ⟨hmoves.trans hmoves', List.forall_mem_cons.mpr ⟨⟨?_, ?_, ?_⟩, fun merge hmerge => ?_⟩⟩
      · exact hl.between.widen (.refl _) hwidens
      · exact hr.between.widen (.refl _) hwidens
      · exact hmoves'.widens.env.merge
          ⟨⟨_, hfind, hbelow.trans hbound⟩, ⟨_, hfind, hbelow'.trans hbound⟩⟩
      · have hmerge := hmerges merge hmerge
        exact ⟨hmerge.left.widen hmoves.widens.env (.refl _),
          hmerge.right.widen hmoves.widens.env (.refl _), hmerge.bounded⟩

-- A value that enters a loop is between what variables were known as before and are
-- known as then, and flows into the variable of its merge.
structure EntryBetween (p : Ty → Prop) (before env : NameMap Ty) (entry : String × TypedExpr) :
    Prop where
  value : entry.2.Between p before env
  bounded : env.Bounds Ty.Below entry.1 entry.2.ty

theorem enterLoop_flows (hctx : Flowing p bound P ctx) : ∀ (merges : List (Merge Expr))
    {locals locals' : Locals} {store later : Store} {entries : List (String × TypedExpr)},
      Held p bound P locals store →
      Yields (enterLoop ctx merges) locals store entries locals' later →
      Moves p bound P locals store locals' later ∧
        ∀ entry ∈ entries, EntryBetween p locals.env locals'.env entry
  | [], locals, locals', store, later, entries, hheld, h => by
      obtain ⟨rfl, rfl, rfl⟩ := yields_enterLoop_nil h
      exact ⟨.refl hheld, List.forall_mem_nil _⟩
  | merge :: merges, locals, locals', store, later, entries, hheld, h => by
      obtain ⟨left, _, _, var, _, _, _, _, _, rest, hleft, hlocal, hwiden, hrest, rfl⟩ :=
        yields_enterLoop_cons h
      obtain ⟨hadvances, hl⟩ := expr_flows hctx merge.left hheld hleft
      cases hadvances.locals_eq
      obtain ⟨hmoves, hfind, hbound, -⟩ :=
        bind_moves hctx hl.ty (hheld.advance hadvances) hlocal hwiden
      have hmoves := (Moves.of_advances hheld hadvances).trans hmoves
      obtain ⟨hmoves', hentries⟩ := enterLoop_flows hctx merges hmoves.held hrest
      refine ⟨hmoves.trans hmoves', List.forall_mem_cons.mpr ⟨⟨?_, ?_⟩, fun entry hentry => ?_⟩⟩
      · exact hl.between.widen (.refl _) (hmoves.trans hmoves').widens.env
      · exact hmoves'.widens.env.bounds ⟨_, hfind, hbound⟩
      · have hentry := hentries entry hentry
        exact ⟨hentry.value.widen hmoves.widens.env (.refl _), hentry.bounded⟩

-- A merge of a loop, with the type that its variable had when the value came back
-- that is joined into it, and the one that it has from then on.
structure LoopMerge (p bound : Ty → Prop) (before entered after : NameMap Ty)
    (merge : Merge TypedExpr) : Prop where
  between : MergeBetween p before entered after merge
  seeded : entered.Bounds Ty.Below merge.var merge.left.ty
  joined : ∃ old new, old.combine merge.right.ty = .ok new ∧ entered.Between after merge.var old ∧
    entered.Between after merge.var new ∧ bound old ∧ bound new

-- At the end of a pass the values of entries stay as they were read on entry.
theorem closeLoop_flows (hctx : Flowing p bound P ctx) {before entered : NameMap Ty} :
    ∀ (merges : List (Merge Expr)) {entries : List (String × TypedExpr)} {locals locals' : Locals}
      {store later : Store} {merges' : List (Merge TypedExpr)}, Held p bound P locals store →
      entered.Widens locals.env → (∀ entry ∈ entries, EntryBetween p before entered entry) →
      Yields (closeLoop ctx merges entries) locals store merges' locals' later →
      Moves p bound P locals store locals' later ∧
        ∀ merge ∈ merges', LoopMerge p bound before entered locals'.env merge
  | [], entries, locals, locals', store, later, merges', hheld, _, _, h
  | _ :: _, [], locals, locals', store, later, merges', hheld, _, _, h => by
      obtain ⟨rfl, rfl, rfl⟩ := yields_closeLoop_nil (by simp) h
      exact ⟨.refl hheld, List.forall_mem_nil _⟩
  | merge :: merges, (var, left) :: entries, locals, locals', store, later, merges', hheld, hentered,
      hentries, h => by
      obtain ⟨right, _, _, new, _, _, rest, hright, hwiden, hrest, rfl⟩ := yields_closeLoop_cons h
      obtain ⟨hentry, hentries⟩ := List.forall_mem_cons.mp hentries
      obtain ⟨hadvances, hr⟩ := expr_flows hctx merge.right hheld hright
      cases hadvances.locals_eq
      obtain ⟨hmoves, hfind, hbound, -⟩ :=
        widen_moves hctx.regime (hctx.regime.of_parts hr.ty) (hheld.advance hadvances) hwiden
      have hmoves := (Moves.of_advances hheld hadvances).trans hmoves
      obtain ⟨hmoves', hmerges⟩ := closeLoop_flows hctx merges hmoves.held
        (hentered.trans hmoves.widens.env) hentries hrest
      have hwhole := (hmoves.trans hmoves').widens.env
      have hbetween : MergeBetween p before entered _ { var, left, right } :=
        { left := hentry.value.widen (.refl _) (hentered.trans hwhole)
          right := hr.between.widen hentered hwhole
          bounded := ⟨(hentered.trans hwhole).bounds hentry.bounded,
            hmoves'.widens.env.bounds ⟨_, hfind, hbound⟩⟩ }
      -- The variable was given a type on entry, so the value joins into some type.
      obtain ⟨seed, hseed, -⟩ := hentry.bounded
      obtain ⟨old, hold, -⟩ := hentered hseed
      have hjoin : old.combine right.ty = .ok new := by
        simpa only [hold] using (yields_widen.mp hwiden).1
      have hbefore : entered.Between _ var old :=
        (NameMap.Between.of_find? hold).widen hentered hwhole
      have hafter : entered.Between _ var new :=
        (NameMap.Between.of_find? hfind).widen (hentered.trans hmoves.widens.env) hmoves'.widens.env
      exact ⟨hmoves.trans hmoves', List.forall_mem_cons.mpr
        ⟨⟨hbetween, hentry.bounded, old, new, hjoin, hbefore, hafter, hheld.env hold,
          hmoves.held.env hfind⟩, hmerges⟩⟩

-- A branch or a loop is between two times if its condition and its merges are.
theorem between_of_merges {s : TypedStmt} {cond : TypedExpr} {entered : NameMap Ty}
    (hwidens : locals.env.Widens entered) (hcond : cond.Between p locals.env locals'.env)
    (hmerges : ∀ merge ∈ s.merges, MergeBetween p locals.env entered locals'.env merge)
    (hexprs : s.exprs = cond :: s.merges.flatMap fun merge => [merge.left, merge.right])
    (hassign : ∀ target value, s ≠ .assign target value) (hret : ∀ value, s ≠ .ret value) :
    s.Between p locals locals' := by
  refine .of_exprs (fun t ht => ?_) (fun heq => (hassign _ _ heq).elim)
    (fun merge hmerge => (hmerges merge hmerge).bounded) (fun heq => (hret _ heq).elim)
  simp only [hexprs, List.mem_cons, List.mem_flatMap, List.not_mem_nil, or_false] at ht
  rcases ht with rfl | ⟨merge, hmerge, rfl | rfl⟩
  · exact hcond
  · exact (hmerges merge hmerge).left
  · exact (hmerges merge hmerge).right.widen hwidens (.refl _)

-- What a run over a block of statements comes to.
def BlockRuns (p bound : Ty → Prop) (P : Store → Prop) (m : Annotate (List TypedStmt)) : Prop :=
  ∀ {locals locals' : Locals} {store later : Store} {body : List TypedStmt},
    Held p bound P locals store → Yields m locals store body locals' later →
    Moves p bound P locals store locals' later ∧
      ∀ s ∈ Stmt.withinBlock body, s.Between p locals locals'

-- What a pass over a loop comes to, from the time when all values have entered it:
-- whether it settles is told by what was known of variables then.
structure LoopPass (p bound : Ty → Prop) (P : Store → Prop) (head : Annotate TypedExpr)
    (body : Annotate (List TypedStmt)) (locals entered : Locals) (between : Store)
    (cond : TypedExpr) (body' : List TypedStmt) (merges : List (Merge TypedExpr)) (settled : Bool)
    (locals' : Locals) (later : Store) : Prop where
  settled_eq : settled = entered.env.extendedBy locals'.env
  moves : Moves p bound P entered between locals' later
  ran : ∃ start middle last, Yields head entered between cond entered start ∧
    Held p bound P entered start ∧ Yields body entered start body' middle last ∧
    Moves p bound P middle last locals' later
  cond : cond.Between p entered.env locals'.env
  body : ∀ s ∈ Stmt.withinBlock body', s.Between p entered locals'
  merges : ∀ merge ∈ merges, LoopMerge p bound locals.env entered.env locals'.env merge

theorem loopPass_runs (hctx : Flowing p bound P ctx) {cond : Expr}
    {m : Annotate (List TypedStmt)} (hbody : BlockRuns p bound P m) {merges : List (Merge Expr)}
    {t : TypedStmt} {settled : Bool} (hheld : Held p bound P locals store)
    (h : Yields (loopPass ctx cond m merges) locals store (t, settled) locals' later) :
    ∃ entries entered between cond' body' merges',
      Yields (enterLoop ctx merges) locals store entries entered between ∧
      Moves p bound P locals store entered between ∧ t = .loop cond' body' merges' ∧
      LoopPass p bound P (condition ctx cond) m locals entered between cond' body' merges' settled
        locals' later := by
  obtain ⟨entries, entered, between, cond', _, start, body', middle, last, merges', henter, hcond,
    hblock, hclose, rfl, rfl⟩ := yields_loopPass h
  obtain ⟨hmoves, hentries⟩ := enterLoop_flows hctx merges hheld henter
  obtain ⟨hadvances, hc⟩ := condition_flows hctx hmoves.held hcond
  cases hadvances.locals_eq
  have hstart := Moves.of_advances hmoves.held hadvances
  obtain ⟨hmiddle, hb⟩ := hbody hstart.held hblock
  have hmoves' := hstart.trans hmiddle
  obtain ⟨hlast, hm⟩ := closeLoop_flows hctx merges hmoves'.held hmoves'.widens.env hentries hclose
  have hwhole := hmoves'.trans hlast
  exact ⟨entries, entered, between, cond', body', merges', henter, hmoves, rfl,
    { settled_eq := rfl
      moves := hwhole
      cond := hc.between.widen (.refl _) hwhole.widens.env
      ran := ⟨start, middle, last, hcond, hstart.held, hblock, hlast⟩
      body := fun s hs => (hb s hs).widen (.refl _) hlast.widens
      merges := hm }⟩

theorem loopPass_flows (hctx : Flowing p bound P ctx) {cond : Expr}
    {m : Annotate (List TypedStmt)} (hbody : BlockRuns p bound P m) {merges : List (Merge Expr)}
    {t : TypedStmt} {settled : Bool} (hheld : Held p bound P locals store)
    (h : Yields (loopPass ctx cond m merges) locals store (t, settled) locals' later) :
    Moves p bound P locals store locals' later ∧ ∀ s ∈ t.within, s.Between p locals locals' := by
  obtain ⟨_, entered, _, cond', body', merges', -, hmoves, rfl, hpass⟩ :=
    loopPass_runs hctx hbody hheld h
  refine ⟨hmoves.trans hpass.moves, List.forall_mem_cons.mpr ⟨?_, fun s hs => ?_⟩⟩
  · exact between_of_merges hmoves.widens.env (hpass.cond.widen hmoves.widens.env (.refl _))
      (fun merge hmerge => (hpass.merges merge hmerge).between) rfl (by simp) (by simp)
  · exact (hpass.body s hs).widen hmoves.widens (.refl _)

-- Passes over a loop, one after another, none of which settles it.
inductive Unsettled (pass : Annotate (TypedStmt × Bool)) :
    Locals → Store → Locals → Store → Prop where
  | none {locals : Locals} {store : Store} : Unsettled pass locals store locals store
  | again {locals middle locals' : Locals} {store between later : Store} {t : TypedStmt} :
      Yields pass locals store (t, false) middle between →
      Unsettled pass middle between locals' later → Unsettled pass locals store locals' later

-- A loop that settles has been typed by a last pass, from wherever the passes before
-- it have moved.
theorem settle_last (hctx : Flowing p bound P ctx) {cond : Expr} {m : Annotate (List TypedStmt)}
    (hbody : BlockRuns p bound P m) {merges : List (Merge Expr)} {t : TypedStmt} {limit : Nat}
    (left : Nat) : ∀ {locals : Locals} {store : Store}, Held p bound P locals store →
      Yields (settle limit (loopPass ctx cond m merges) left) locals store t locals' later →
      ∃ start before, Unsettled (loopPass ctx cond m merges) locals store start before ∧
        Moves p bound P locals store start before ∧
        Yields (loopPass ctx cond m merges) start before (t, true) locals' later := by
  induction left with
  | zero =>
      intro locals store _ h
      exact (yields_throw h).elim
  | succ left ih =>
      intro locals store hheld h
      obtain hpass | ⟨t', middle, between, hpass, hsettle⟩ := yields_settle_succ h
      · exact ⟨locals, store, .none, .refl hheld, hpass⟩
      · obtain ⟨hmoves, -⟩ := loopPass_flows hctx hbody hheld hpass
        obtain ⟨start, before, hunsettled, hmoves', hlast⟩ := ih hmoves.held hsettle
        exact ⟨start, before, .again hpass hunsettled, hmoves.trans hmoves', hlast⟩

mutual

-- Statements flow into the locals as they are when they have been typed, and
-- from then on into whatever the locals widen to.
theorem stmt_flows (hctx : Flowing p bound P ctx) : ∀ (s : Stmt Expr) {locals locals' : Locals}
    {store later : Store} {t : TypedStmt}, Held p bound P locals store →
      Yields (stmt ctx s) locals store t locals' later →
      Moves p bound P locals store locals' later ∧ ∀ s ∈ t.within, s.Between p locals locals'
  | .assign lhs rhs, locals, locals', store, later, t, hheld, h => by
      obtain ⟨value, _, _, slot, hvalue, htarget, rfl⟩ := yields_assign h
      obtain ⟨hadvances, hv⟩ := expr_flows hctx rhs hheld hvalue
      cases hadvances.locals_eq
      obtain ⟨hmoves, hs, htakes⟩ := target_flows hctx lhs hv.ty (hheld.advance hadvances) htarget
      have hmoves := (Moves.of_advances hheld hadvances).trans hmoves
      refine ⟨hmoves, List.forall_mem_singleton.mpr (.of_exprs ?_ ?_ nofun nofun)⟩
      · have hv := hv.between.widen (.refl _) hmoves.widens.env
        exact List.forall_mem_cons.mpr ⟨hs, List.forall_mem_singleton.mpr hv⟩
      · rintro _ _ ⟨⟩
        exact htakes
  | .branch cond onTrue onFalse merges, locals, locals', store, later, t, hheld, h => by
      obtain ⟨cond', _, _, onTrue', _, _, onFalse', _, _, merges', hcond, htrue, hfalse, hmerges,
        rfl⟩ := yields_branch h
      obtain ⟨hadvances, hc⟩ := condition_flows hctx hheld hcond
      cases hadvances.locals_eq
      obtain ⟨hmoves, ht⟩ := block_flows hctx onTrue (hheld.advance hadvances) htrue
      have hmoves := (Moves.of_advances hheld hadvances).trans hmoves
      obtain ⟨hmoves', hf⟩ := block_flows hctx onFalse hmoves.held hfalse
      obtain ⟨hmoves'', hm⟩ := branchMerges_flow hctx merges hmoves'.held hmerges
      have hfirst := hmoves.trans hmoves'
      have hrest := hmoves'.trans hmoves''
      have hwhole := hfirst.trans hmoves''
      refine ⟨hwhole, List.forall_mem_cons.mpr ⟨?_, List.forall_mem_append.mpr ⟨?_, ?_⟩⟩⟩
      · refine between_of_merges hfirst.widens.env (hc.between.widen (.refl _) hwhole.widens.env)
          (fun merge hmerge => ?_) rfl (by simp) (by simp)
        have hmerge := hm merge hmerge
        exact ⟨hmerge.left.widen hfirst.widens.env (.refl _), hmerge.right, hmerge.bounded⟩
      · exact fun s hs => (ht s hs).widen (.refl _) hrest.widens
      · exact fun s hs => (hf s hs).widen hmoves.widens hmoves''.widens
  | .loop cond body merges, locals, locals', store, later, t, hheld, h => by
      unfold stmt at h
      obtain ⟨start, before, -, hmoves, hlast⟩ :=
        settle_last hctx (block_flows hctx body) ctx.loopLimit hheld h
      obtain ⟨hmoves', ht⟩ := loopPass_flows hctx (block_flows hctx body) hmoves.held hlast
      exact ⟨hmoves.trans hmoves', fun s hs => (ht s hs).widen hmoves.widens (.refl _)⟩
  | .ret value, locals, locals', store, later, t, hheld, h => by
      obtain ⟨value', _, _, hvalue, hreturns, rfl⟩ := yields_ret h
      obtain ⟨hadvances, hv⟩ := expr_flows hctx value hheld hvalue
      cases hadvances.locals_eq
      obtain ⟨hmoves, hbound⟩ :=
        returns_moves hctx.regime hv.ty (hheld.advance hadvances) hreturns
      have hmoves := (Moves.of_advances hheld hadvances).trans hmoves
      refine ⟨hmoves, List.forall_mem_singleton.mpr (.of_exprs ?_ nofun nofun ?_)⟩
      · exact List.forall_mem_singleton.mpr (hv.between.widen (.refl _) hmoves.widens.env)
      · rintro _ ⟨⟩
        exact hbound
  termination_by structural s => s

theorem block_flows (hctx : Flowing p bound P ctx) :
    ∀ body : List (Stmt Expr), BlockRuns p bound P (block ctx body)
  | [], locals, locals', store, later, body', hheld, h => by
      obtain ⟨rfl, rfl, rfl⟩ := yields_block_nil h
      exact ⟨.refl hheld, List.forall_mem_nil _⟩
  | s :: rest, locals, locals', store, later, body', hheld, h => by
      obtain ⟨t, _, _, ts, hstmt, hrest, rfl⟩ := yields_block_cons.mp h
      obtain ⟨hmoves, ht⟩ := stmt_flows hctx s hheld hstmt
      obtain ⟨hmoves', hts⟩ := block_flows hctx rest hmoves.held hrest
      refine ⟨hmoves.trans hmoves', List.forall_mem_append.mpr ⟨fun s hs => ?_, fun s hs => ?_⟩⟩
      · exact (ht s hs).widen (.refl _) hmoves'.widens
      · exact (hts s hs).widen hmoves.widens (.refl _)
  termination_by structural body => body

end

end RankPoly.Annotate
