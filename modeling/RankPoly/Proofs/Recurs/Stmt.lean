import RankPoly.Proofs.Flow.Stmt
import RankPoly.Proofs.Recurs.Expr

namespace RankPoly

open Ty (AllParts Proper)

namespace NameMap

-- What is bound already stays as it is when it is bound again.
theorem Sorted.insert_of_find? {α : Type} {map : NameMap α} (hmap : map.Sorted) {name : String}
    {value : α} (h : map.find? name = some value) : map.insert name value = map := by
  induction map with
  | nil => cases h
  | cons entry rest ih =>
      obtain ⟨key, known⟩ := entry
      obtain ⟨hfirst, hrest⟩ := List.pairwise_cons.mp hmap
      change ∀ other ∈ keys rest, key < other at hfirst
      rw [find?_cons] at h
      by_cases hkey : key = name
      · rw [if_pos hkey] at h
        cases h
        simp only [NameMap.insert, hkey, Std.compare_self]
      · rw [if_neg hkey] at h
        have hlt : key < name := hfirst name (mem_keys_iff.mpr ⟨value, h⟩)
        have hgt : compare name key = .gt :=
          (compareOfLessAndEq_eq_gt String.le_antisymm String.le_total String.not_le _ _).mpr hlt
        simp only [NameMap.insert, hgt, ih hrest h]

theorem Sorted.extendedBy_self {env : NameMap Ty} (henv : env.Sorted) : env.extendedBy env = true :=
  List.all_eq_true.mpr fun _ hentry => decide_eq_true (find?_of_mem henv.nodup hentry)

end NameMap

-- All variables in a statement, at any depth, have the types that are known of them.
def Stmt.Rests (env : NameMap Ty) (s : TypedStmt) : Prop :=
  ∀ s' ∈ s.within, ∀ t ∈ s'.exprs, t.Rests env

def Stmt.BlockRests (env : NameMap Ty) (body : List TypedStmt) : Prop :=
  ∀ s ∈ Stmt.withinBlock body, ∀ t ∈ s.exprs, t.Rests env

def Merge.Rests (env : NameMap Ty) (merge : Merge TypedExpr) : Prop :=
  merge.left.Rests env ∧ merge.right.Rests env

namespace Stmt

variable {env : NameMap Ty} {cond : TypedExpr} {merges : List (Merge TypedExpr)}

theorem blockRests_cons {s : TypedStmt} {rest : List TypedStmt} :
    BlockRests env (s :: rest) ↔ s.Rests env ∧ BlockRests env rest :=
  List.forall_mem_append

private theorem rests_exprs {s : TypedStmt}
    (h : s.exprs = cond :: merges.flatMap fun merge => [merge.left, merge.right]) :
    (∀ t ∈ s.exprs, t.Rests env) ↔ cond.Rests env ∧ ∀ merge ∈ merges, merge.Rests env := by
  rw [h, List.forall_mem_cons, List.forall_mem_flatMap]
  simp [Merge.Rests]

theorem rests_branch {onTrue onFalse : List TypedStmt} :
    Rests env (.branch cond onTrue onFalse merges) ↔
      (cond.Rests env ∧ ∀ merge ∈ merges, merge.Rests env) ∧
        BlockRests env onTrue ∧ BlockRests env onFalse := by
  refine List.forall_mem_cons.trans (and_congr (rests_exprs rfl) ?_)
  exact List.forall_mem_append

theorem rests_loop {body : List TypedStmt} :
    Rests env (.loop cond body merges) ↔
      (cond.Rests env ∧ ∀ merge ∈ merges, merge.Rests env) ∧ BlockRests env body :=
  List.forall_mem_cons.trans (and_congr_left' (rests_exprs rfl))

end Stmt

-- Locals whose types are proper, with each variable known once.
structure Locals.Proper (locals : Locals) : Prop where
  sorted : locals.env.Sorted
  env : ∀ {name ty}, locals.env.find? name = some ty → AllParts Ty.Proper ty
  returnType : ∀ ty ∈ locals.returnType, AllParts Ty.Proper ty

-- Locals that may become others: variables keep their locals, and types are only
-- widened.
structure Locals.LeadsTo (locals final : Locals) : Prop where
  naming : locals.naming ≤ final.naming
  widens : locals.Widens final

namespace Annotate

variable {P : Store → Prop} {ctx : Context} {final locals locals' : Locals}
  {store between later : Store}

theorem Moves.leadsTo {p bound : Ty → Prop} (h : Moves p bound P locals store locals' later)
    (hfinal : locals'.LeadsTo final) : locals.LeadsTo final :=
  ⟨h.naming.trans hfinal.naming, h.widens.trans hfinal.widens⟩

namespace Recurs

theorem of_grows {α : Type} {m : Annotate α} {a : α} (h : Recurs P final m a between later)
    (hgrows : store.Grows between) : Recurs P final m a store later :=
  ⟨hgrows.trans h.grows, h.kept, h.again⟩

theorem get (hstore : P store) : Recurs P final get final store store where
  grows := .refl store
  kept := hstore
  again hafter _ := ⟨_, yields_get.mpr ⟨rfl, rfl, rfl⟩, .refl _, hafter⟩

-- A type that flows into what a variable has in the end does not change that.
theorem widen (hfinal : final.Proper) {known : String} {ty bound : Ty}
    (hknown : final.env.find? known = some bound) (hbelow : ty.Below bound)
    (hty : AllParts Ty.Proper ty) (hstore : P store) :
    Recurs P final (widen known ty) bound store store where
  grows := .refl store
  kept := hstore
  again {after} hafter _ := by
    refine ⟨after, yields_widen.mpr ⟨?_, ?_, rfl⟩, .refl _, hafter⟩
    · simpa only [hknown] using Ty.combine_of_below hbelow hty (hfinal.env hknown)
    · rw [hfinal.sorted.insert_of_find? hknown]

theorem returns (hfinal : final.Proper) {ty bound : Ty} (hknown : final.returnType = some bound)
    (hbelow : ty.Below bound) (hty : AllParts Ty.Proper ty) (hstore : P store) :
    Recurs P final (returns ty) () store store where
  grows := .refl store
  kept := hstore
  again {after} hafter _ := by
    refine ⟨after, ?_, .refl _, hafter⟩
    unfold Yields
    rw [outcome_returns]
    simp only [hknown, Ty.combine_of_below hbelow hty (hfinal.returnType bound hknown)]
    rw [← hknown]

end Recurs

-- What annotations have around them that recur, and the locals that they lead to.
structure Recurring (P : Store → Prop) (ctx : Context) (final : Locals) : Prop where
  flowing : Flowing Ty.Proper (AllParts Ty.Proper) P ctx
  recalling : Recalling P ctx
  final : final.Proper

-- What is held between the steps of an annotation of proper types.
abbrev HeldProper (P : Store → Prop) (locals : Locals) (store : Store) : Prop :=
  Held Ty.Proper (AllParts Ty.Proper) P locals store

section Recurring

variable (hctx : Recurring P ctx final)
include hctx

theorem condition_recurs {cond : Expr} {t : TypedExpr} (hheld : HeldProper P locals store)
    (h : Yields (condition ctx cond) locals store t locals' later) (hlocals : locals.LeadsTo final)
    (hrests : t.Rests final.env) : Recurs P final (condition ctx cond) t store later := by
  obtain ⟨hexpr, hscalar⟩ := yields_condition h
  obtain ⟨-, he⟩ := expr_recurs hctx.recalling cond hheld.store hlocals.naming hexpr hrests
  exact .bind he fun hstore => .bind (.require hscalar hstore) (.pure _)

theorem localFor_recurs {name known : String} (hheld : HeldProper P locals store)
    (h : Yields (localFor name) locals store known locals' later) (hlocals : locals'.LeadsTo final) :
    Recurs P final (localFor name) known store later := by
  obtain ⟨hmoves, -, hname⟩ := localFor_moves hctx.flowing hheld h
  refine ⟨hmoves.grows, hmoves.held.store, fun {after} hafter _ => ⟨after, ?_, .refl _, hafter⟩⟩
  have hfinal : final.names.find? name = some known := hlocals.naming _ _ hname
  unfold Yields
  rw [outcome_localFor]
  simp only [hfinal]

-- A variable that a type is joined into has some type in the end that takes it in.
theorem widen_recurs {known : String} {ty widened : Ty} (hty : AllParts Ty.Proper ty)
    (hheld : HeldProper P locals store)
    (h : Yields (widen known ty) locals store widened locals' later)
    (hlocals : locals'.LeadsTo final) :
    ∃ bound, final.env.find? known = some bound ∧
      Recurs P final (widen known ty) bound store later := by
  obtain ⟨-, hfind, hbelow, -⟩ := widen_moves hctx.flowing.regime hty hheld h
  obtain ⟨bound, hbound, hbelow'⟩ := hlocals.widens.env hfind
  obtain ⟨-, -, rfl⟩ := yields_widen.mp h
  exact ⟨bound, hbound, .widen hctx.final hbound (hbelow.trans hbelow') hty hheld.store⟩

theorem bind_recurs {name known : String} {ty widened : Ty} {middle : Locals}
    (hty : AllParts Ty.Proper ty) (hheld : HeldProper P locals store)
    (hlocal : Yields (localFor name) locals store known middle between)
    (hwiden : Yields (widen known ty) middle between widened locals' later)
    (hlocals : locals'.LeadsTo final) :
    Recurs P final (localFor name) known store between ∧
      ∃ bound, final.env.find? known = some bound ∧
        Recurs P final (widen known ty) bound between later := by
  obtain ⟨hmoves, -, -⟩ := localFor_moves hctx.flowing hheld hlocal
  obtain ⟨hmoves', -⟩ := widen_moves hctx.flowing.regime hty hmoves.held hwiden
  exact ⟨localFor_recurs hctx hheld hlocal (hmoves'.leadsTo hlocals),
    widen_recurs hctx hty hmoves.held hwiden hlocals⟩

theorem returns_recurs {ty : Ty} {u : Unit}
    (hty : AllParts Ty.Proper ty) (hheld : HeldProper P locals store)
    (h : Yields (returns ty) locals store u locals' later) (hlocals : locals'.LeadsTo final) :
    Recurs P final (returns ty) u store later := by
  obtain ⟨hmoves, bound, hbound, hbelow⟩ := returns_moves hctx.flowing.regime hty hheld h
  obtain ⟨bound', hbound', hbelow'⟩ := hlocals.widens.returnType bound hbound
  have hrecurs := Recurs.returns hctx.final hbound' (hbelow.trans hbelow') hty hmoves.held.store
  exact hrecurs.of_grows hmoves.grows

theorem branchMerges_recur : ∀ (merges : List (Merge Expr)) {locals locals' : Locals}
    {store later : Store} {merges' : List (Merge TypedExpr)}, HeldProper P locals store →
      Yields (branchMerges ctx merges) locals store merges' locals' later →
      locals'.LeadsTo final → (∀ merge ∈ merges', merge.Rests final.env) →
      Recurs P final (branchMerges ctx merges) merges' store later
  | [], locals, locals', store, later, merges', hheld, h, _, _ => by
      obtain ⟨rfl, rfl, rfl⟩ := yields_branchMerges_nil h
      exact .pure _ hheld.store
  | merge :: merges, locals, locals', store, later, merges', hheld, h, hlocals, hrests => by
      obtain ⟨left, _, _, right, _, _, var, _, _, both, _, _, _, rest, hleft, hright, hlocal, hboth,
        hwiden, hrest, rfl⟩ := yields_branchMerges_cons h
      obtain ⟨⟨hl, hr⟩, hrests⟩ := List.forall_mem_cons.mp hrests
      obtain ⟨hadvances, hleftReads⟩ := expr_flows hctx.flowing merge.left hheld hleft
      cases hadvances.locals_eq
      obtain ⟨hadvances', hrightReads⟩ :=
        expr_flows hctx.flowing merge.right (hheld.advance hadvances) hright
      have hheld' := hheld.advance (hadvances.trans hadvances')
      have hvalue := hctx.flowing.regime.stable.combine hboth hleftReads.ty hrightReads.ty
      obtain ⟨hmoves, -⟩ := bind_moves hctx.flowing hvalue hheld' hlocal hwiden
      obtain ⟨hmoves', -⟩ := branchMerges_flow hctx.flowing merges hmoves.held hrest
      have hmiddle := hmoves'.leadsTo hlocals
      have hstart := hmoves.leadsTo hmiddle
      cases hadvances'.locals_eq
      obtain ⟨-, hleft⟩ := expr_recurs hctx.recalling _ hheld.store hstart.naming hleft hl
      obtain ⟨-, hright⟩ := expr_recurs hctx.recalling _ hleft.kept hstart.naming hright hr
      obtain ⟨hlocal, bound, -, hwiden⟩ := bind_recurs hctx hvalue hheld' hlocal hwiden hmiddle
      have hrest := branchMerges_recur merges hmoves.held hrest hlocals hrests
      exact .bind hleft fun _ => .bind hright fun _ => .bind hlocal fun hstore =>
        .bind (.ofTy hboth hstore) fun _ => .bind hwiden fun _ => .bind hrest (.pure _)

theorem enterLoop_recurs : ∀ (merges : List (Merge Expr)) {locals locals' : Locals}
    {store later : Store} {entries : List (String × TypedExpr)}, HeldProper P locals store →
      Yields (enterLoop ctx merges) locals store entries locals' later →
      locals'.LeadsTo final → (∀ entry ∈ entries, entry.2.Rests final.env) →
      Recurs P final (enterLoop ctx merges) entries store later
  | [], locals, locals', store, later, entries, hheld, h, _, _ => by
      obtain ⟨rfl, rfl, rfl⟩ := yields_enterLoop_nil h
      exact .pure _ hheld.store
  | merge :: merges, locals, locals', store, later, entries, hheld, h, hlocals, hrests => by
      obtain ⟨left, _, _, var, _, _, _, _, _, rest, hleft, hlocal, hwiden, hrest, rfl⟩ :=
        yields_enterLoop_cons h
      obtain ⟨hl, hrests⟩ := List.forall_mem_cons.mp hrests
      obtain ⟨hadvances, hreads⟩ := expr_flows hctx.flowing merge.left hheld hleft
      cases hadvances.locals_eq
      have hheld' := hheld.advance hadvances
      obtain ⟨hmoves, -⟩ := bind_moves hctx.flowing hreads.ty hheld' hlocal hwiden
      obtain ⟨hmoves', -⟩ := enterLoop_flows hctx.flowing merges hmoves.held hrest
      have hmiddle := hmoves'.leadsTo hlocals
      obtain ⟨-, hleft⟩ :=
        expr_recurs hctx.recalling _ hheld.store (hmoves.leadsTo hmiddle).naming hleft hl
      obtain ⟨hlocal, bound, -, hwiden⟩ := bind_recurs hctx hreads.ty hheld' hlocal hwiden hmiddle
      have hrest := enterLoop_recurs merges hmoves.held hrest hlocals hrests
      exact .bind hleft fun _ => .bind hlocal fun _ => .bind hwiden fun _ => .bind hrest (.pure _)

theorem closeLoop_recurs {before entered : NameMap Ty} : ∀ (merges : List (Merge Expr))
    {entries : List (String × TypedExpr)} {locals locals' : Locals} {store later : Store}
    {merges' : List (Merge TypedExpr)}, HeldProper P locals store → entered.Widens locals.env →
      (∀ entry ∈ entries, EntryBetween Ty.Proper before entered entry) →
      Yields (closeLoop ctx merges entries) locals store merges' locals' later →
      locals'.LeadsTo final → (∀ merge ∈ merges', merge.Rests final.env) →
      Recurs P final (closeLoop ctx merges entries) merges' store later
  | [], entries, locals, locals', store, later, merges', hheld, _, _, h, _, _
  | _ :: _, [], locals, locals', store, later, merges', hheld, _, _, h, _, _ => by
      obtain ⟨rfl, rfl, rfl⟩ := yields_closeLoop_nil (by simp) h
      exact .pure _ hheld.store
  | merge :: merges, (var, left) :: entries, locals, locals', store, later, merges', hheld, hentered,
      hentries, h, hlocals, hrests => by
      obtain ⟨right, _, _, widened, _, _, rest, hright, hwiden, hrest, rfl⟩ := yields_closeLoop_cons h
      obtain ⟨⟨-, hr⟩, hrests⟩ := List.forall_mem_cons.mp hrests
      obtain ⟨-, hentries⟩ := List.forall_mem_cons.mp hentries
      obtain ⟨hadvances, hreads⟩ := expr_flows hctx.flowing merge.right hheld hright
      cases hadvances.locals_eq
      have hheld' := hheld.advance hadvances
      obtain ⟨hmoves, -⟩ := widen_moves hctx.flowing.regime hreads.ty hheld' hwiden
      have hentered := hentered.trans hmoves.widens.env
      obtain ⟨hmoves', -⟩ :=
        closeLoop_flows hctx.flowing merges hmoves.held hentered hentries hrest
      have hmiddle := hmoves'.leadsTo hlocals
      obtain ⟨-, hright⟩ :=
        expr_recurs hctx.recalling _ hheld.store (hmoves.leadsTo hmiddle).naming hright hr
      obtain ⟨bound, -, hwiden⟩ := widen_recurs hctx hreads.ty hheld' hwiden hmiddle
      have hrest := closeLoop_recurs merges hmoves.held hentered hentries hrest hlocals hrests
      exact .bind hright fun _ => .bind hwiden fun _ => .bind hrest (.pure _)

mutual

theorem target_recurs : ∀ (lhs : Expr) {rhs : Ty} {locals locals' : Locals} {store later : Store}
    {t : TypedExpr}, AllParts Ty.Proper rhs → HeldProper P locals store →
      Yields (target ctx lhs rhs) locals store t locals' later → locals'.LeadsTo final →
      t.Rests final.env → Recurs P final (target ctx lhs rhs) t store later
  | .var name, rhs, locals, locals', store, later, t, hrhs, hheld, h, hlocals, hrests => by
      obtain ⟨known, _, _, ty, hlocal, hwiden, rfl⟩ := yields_target_var h
      obtain ⟨hlocal, bound, hbound, hwiden⟩ := bind_recurs hctx hrhs hheld hlocal hwiden hlocals
      cases hbound.symm.trans (hrests .self)
      unfold target
      exact .bind hlocal fun _ => .bind hwiden (.pure _)
  | .tuple parts, rhs, locals, locals', store, later, t, hrhs, hheld, h, hlocals, hrests => by
      obtain ⟨elems, parts', rfl, hlength, htargets, rfl⟩ := yields_target_tuple h
      have hparts := targets_recur parts hlength (Ty.allParts_tuple.mp hrhs).2 hheld htargets hlocals
        fun t ht => hrests.child ht
      unfold target
      exact .bind (.require (decide_eq_true hlength) hheld.store) fun _ => .bind hparts (.pure _)
  | .index value selector, rhs, locals, locals', store, later, t, hrhs, hheld, h, hlocals,
      hrests => by
      obtain ⟨hmoves, -⟩ := target_flows hctx.flowing _ hrhs hheld h
      have hnaming := (hmoves.leadsTo hlocals).naming
      obtain ⟨value', _, _, selector', _, _, hvalue, harray, hselector, hinto⟩ :=
        yields_target_index h
      have hsteady : P _ → Recurs P final _ _ _ _ := .of_steady (.storeInto _ _ _) hinto
      obtain ⟨slot, -, rfl, rfl, rfl⟩ := yields_storeInto hinto
      have hparts : ∀ part ∈ [value', selector'], part.Rests final.env := fun _ => hrests.child
      simp only [List.forall_mem_cons] at hparts
      obtain ⟨rfl, hv⟩ := expr_recurs hctx.recalling _ hheld.store hnaming hvalue hparts.1
      obtain ⟨rfl, hs⟩ := expr_recurs hctx.recalling _ hv.kept hnaming hselector hparts.2.1
      unfold target
      exact .bind hv fun hstore => .bind (.require harray hstore) fun _ => .bind hs hsteady
  | .attribute value name, rhs, locals, locals', store, later, t, hrhs, hheld, h, hlocals,
      hrests => by
      obtain ⟨hmoves, -⟩ := target_flows hctx.flowing _ hrhs hheld h
      have hnaming := (hmoves.leadsTo hlocals).naming
      obtain ⟨value', field, _, hvalue, hfield, hjoin, rfl⟩ := yields_target_attribute h
      have hsteady : P _ → Recurs P final _ _ _ _ := .of_steady (.fieldType _ _) hfield
      obtain ⟨rfl, hv⟩ := expr_recurs hctx.recalling _ hheld.store hnaming hvalue
        (hrests.child (List.mem_singleton.mpr rfl))
      unfold target
      exact .bind hv fun hstore => .bind (hsteady hstore) fun hstore => .bind (.ofTy hjoin hstore)
        (.pure _)
  | .const _, _, _, _, _, _, _, _, _, h, _, _ | .array _, _, _, _, _, _, _, _, _, h, _, _
  | .slice .., _, _, _, _, _, _, _, _, h, _, _ | .prim .., _, _, _, _, _, _, _, _, h, _, _
  | .closure .., _, _, _, _, _, _, _, _, h, _, _ | .invoke .., _, _, _, _, _, _, _, _, h, _, _
  | .map .., _, _, _, _, _, _, _, _, h, _, _ | .fold .., _, _, _, _, _, _, _, _, h, _, _
  | .allPairs .., _, _, _, _, _, _, _, _, h, _, _ => by
      unfold target at h
      exact (yields_throw h).elim
  termination_by structural lhs => lhs

theorem targets_recur : ∀ (parts : List Expr) {elems : List Ty} {locals locals' : Locals}
    {store later : Store} {ts : List TypedExpr}, elems.length = parts.length →
      (∀ elem ∈ elems, AllParts Ty.Proper elem) → HeldProper P locals store →
      Yields (targets ctx parts elems) locals store ts locals' later → locals'.LeadsTo final →
      (∀ t ∈ ts, t.Rests final.env) → Recurs P final (targets ctx parts elems) ts store later
  | [], [], locals, locals', store, later, ts, _, _, hheld, h, _, _ => by
      obtain ⟨rfl, rfl, rfl⟩ := yields_targets_nil h
      exact .pure _ hheld.store
  | part :: parts, elem :: elems, locals, locals', store, later, ts, hlength, helems, hheld, h,
      hlocals, hrests => by
      obtain ⟨t, _, _, ts, htarget, htargets, rfl⟩ := yields_targets_cons h
      obtain ⟨helem, helems⟩ := List.forall_mem_cons.mp helems
      obtain ⟨hr, hrests⟩ := List.forall_mem_cons.mp hrests
      have hlength := Nat.succ.inj hlength
      obtain ⟨hmoves, -⟩ := target_flows hctx.flowing part helem hheld htarget
      obtain ⟨hmoves', -⟩ := targets_flow hctx.flowing parts hlength helems hmoves.held htargets
      have ht := target_recurs part helem hheld htarget (hmoves'.leadsTo hlocals) hr
      have hts := targets_recur parts hlength helems hmoves.held htargets hlocals hrests
      exact .bind ht fun _ => .bind hts (.pure _)
  termination_by structural parts => parts

end

omit hctx

-- All merges get a value on entry, which they keep until their other value comes back.
theorem enterLoop_length : ∀ (merges : List (Merge Expr)) {locals locals' : Locals}
    {store later : Store} {entries : List (String × TypedExpr)},
      Yields (enterLoop ctx merges) locals store entries locals' later →
      entries.length = merges.length
  | [], locals, locals', store, later, entries, h => by
      obtain ⟨rfl, -⟩ := yields_enterLoop_nil h
      rfl
  | merge :: merges, locals, locals', store, later, entries, h => by
      obtain ⟨_, _, _, _, _, _, _, _, _, rest, -, -, -, hrest, rfl⟩ := yields_enterLoop_cons h
      exact congrArg Nat.succ (enterLoop_length merges hrest)

theorem closeLoop_entries : ∀ (merges : List (Merge Expr)) {entries : List (String × TypedExpr)}
    {locals locals' : Locals} {store later : Store} {merges' : List (Merge TypedExpr)},
      entries.length = merges.length →
      Yields (closeLoop ctx merges entries) locals store merges' locals' later →
      entries = merges'.map fun merge => (merge.var, merge.left)
  | [], [], locals, locals', store, later, merges', _, h => by
      obtain ⟨rfl, -⟩ := yields_closeLoop_nil (.inl rfl) h
      rfl
  | merge :: merges, (var, left) :: entries, locals, locals', store, later, merges', hlength, h => by
      obtain ⟨right, _, _, _, _, _, rest, -, -, hrest, rfl⟩ := yields_closeLoop_cons h
      exact congrArg ((var, left) :: ·) (closeLoop_entries merges (Nat.succ.inj hlength) hrest)

-- A block that recurs wherever it has been typed with all variables at rest.
def BlockRecurs (P : Store → Prop) (final : Locals) (m : Annotate (List TypedStmt)) : Prop :=
  ∀ {locals locals' : Locals} {store later : Store} {body : List TypedStmt},
    HeldProper P locals store → Yields m locals store body locals' later → locals'.LeadsTo final →
    Stmt.BlockRests final.env body → Recurs P final m body store later

include hctx

-- A pass that recurs settles the loop, as nothing is changed by it.
theorem loopPass_recurs {cond : Expr} {m : Annotate (List TypedStmt)} {merges : List (Merge Expr)}
    {t : TypedStmt} {settled : Bool} (hruns : BlockRuns Ty.Proper (AllParts Ty.Proper) P m)
    (hbody : BlockRecurs P final m) (hheld : HeldProper P locals store)
    (h : Yields (loopPass ctx cond m merges) locals store (t, settled) locals' later)
    (hlocals : locals'.LeadsTo final) (hrests : t.Rests final.env) :
    Recurs P final (loopPass ctx cond m merges) (t, true) store later := by
  obtain ⟨entries, entered, between, cond', _, start, body', middle, last, merges', henter, hcond,
    hblock, hclose, rfl, -⟩ := yields_loopPass h
  obtain ⟨⟨hcondRests, hmergeRests⟩, hbodyRests⟩ := Stmt.rests_loop.mp hrests
  have hentryRests : ∀ entry ∈ entries, entry.2.Rests final.env := by
    rw [closeLoop_entries merges (enterLoop_length merges henter) hclose]
    intro entry hentry
    obtain ⟨merge, hmerge, rfl⟩ := List.mem_map.mp hentry
    exact (hmergeRests merge hmerge).1
  obtain ⟨hmoves, hentries⟩ := enterLoop_flows hctx.flowing merges hheld henter
  obtain ⟨hadvances, -⟩ := condition_flows hctx.flowing hmoves.held hcond
  cases hadvances.locals_eq
  have hstart := Moves.of_advances hmoves.held hadvances
  obtain ⟨hmiddle, -⟩ := hruns hstart.held hblock
  have hentered := (hstart.trans hmiddle).widens.env
  obtain ⟨hlast, -⟩ := closeLoop_flows hctx.flowing merges hmiddle.held hentered hentries hclose
  have hmiddleLocals := hlast.leadsTo hlocals
  have henteredLocals := hmiddle.leadsTo hmiddleLocals
  have henter := enterLoop_recurs hctx merges hheld henter henteredLocals hentryRests
  have hcond := condition_recurs hctx hmoves.held hcond henteredLocals hcondRests
  have hblock := hbody hstart.held hblock hmiddleLocals hbodyRests
  have hclose :=
    closeLoop_recurs hctx merges hmiddle.held hentered hentries hclose hlocals hmergeRests
  refine .bind henter fun hstore => .bind (.get hstore) fun _ => .bind hcond fun _ =>
    .bind hblock fun _ => .bind hclose fun hstore => .bind (.get hstore) fun hstore => ?_
  rw [hctx.final.sorted.extendedBy_self]
  exact .pure _ hstore

mutual

-- A statement recurs from the final locals on if all variables in it are at rest there.
theorem stmt_recurs : ∀ (s : Stmt Expr) {locals locals' : Locals} {store later : Store}
    {t : TypedStmt}, HeldProper P locals store → Yields (stmt ctx s) locals store t locals' later →
      locals'.LeadsTo final → t.Rests final.env → Recurs P final (stmt ctx s) t store later
  | .assign lhs rhs, locals, locals', store, later, t, hheld, h, hlocals, hrests => by
      obtain ⟨value, _, _, slot, hvalue, htarget, rfl⟩ := yields_assign h
      have hparts : ∀ part ∈ [slot, value], part.Rests final.env := hrests _ List.mem_cons_self
      simp only [List.forall_mem_cons] at hparts
      obtain ⟨hadvances, hreads⟩ := expr_flows hctx.flowing rhs hheld hvalue
      cases hadvances.locals_eq
      have hheld' := hheld.advance hadvances
      obtain ⟨hmoves, -⟩ := target_flows hctx.flowing lhs hreads.ty hheld' htarget
      obtain ⟨-, hv⟩ := expr_recurs hctx.recalling rhs hheld.store (hmoves.leadsTo hlocals).naming
        hvalue hparts.2.1
      have hs := target_recurs hctx lhs hreads.ty hheld' htarget hlocals hparts.1
      unfold stmt
      exact .bind hv fun _ => .bind hs (.pure _)
  | .branch cond onTrue onFalse merges, locals, locals', store, later, t, hheld, h, hlocals,
      hrests => by
      obtain ⟨cond', _, _, onTrue', _, _, onFalse', _, _, merges', hcond, htrue, hfalse, hmerges,
        rfl⟩ := yields_branch h
      obtain ⟨⟨hc, hm⟩, ht, hf⟩ := Stmt.rests_branch.mp hrests
      obtain ⟨hadvances, -⟩ := condition_flows hctx.flowing hheld hcond
      cases hadvances.locals_eq
      obtain ⟨hmoves, -⟩ := block_flows hctx.flowing onTrue (hheld.advance hadvances) htrue
      obtain ⟨hmoves', -⟩ := block_flows hctx.flowing onFalse hmoves.held hfalse
      obtain ⟨hmoves'', -⟩ := branchMerges_flow hctx.flowing merges hmoves'.held hmerges
      have hlocals'' := hmoves''.leadsTo hlocals
      have hlocals' := hmoves'.leadsTo hlocals''
      have hcond := condition_recurs hctx hheld hcond (hmoves.leadsTo hlocals') hc
      have htrue := block_recurs onTrue (hheld.advance hadvances) htrue hlocals' ht
      have hfalse := block_recurs onFalse hmoves.held hfalse hlocals'' hf
      have hmerges := branchMerges_recur hctx merges hmoves'.held hmerges hlocals hm
      unfold stmt
      exact .bind hcond fun _ => .bind htrue fun _ => .bind hfalse fun _ => .bind hmerges (.pure _)
  | .loop cond body merges, locals, locals', store, later, t, hheld, h, hlocals, hrests => by
      unfold stmt at h ⊢
      have hruns : BlockRuns Ty.Proper (AllParts Ty.Proper) P (block ctx body) :=
        block_flows hctx.flowing body
      obtain ⟨start, before, -, hmoves, hlast⟩ := settle_last hctx.flowing hruns _ hheld h
      have hpass := loopPass_recurs hctx hruns (block_recurs body) hmoves.held hlast hlocals hrests
      -- A pass was made, so one may be made again.
      cases hlimit : ctx.loopLimit with
      | zero =>
          rw [hlimit] at h
          exact (yields_throw h).elim
      | succ left => exact .of_grows (.bind hpass (.pure t)) hmoves.grows
  | .ret value, locals, locals', store, later, t, hheld, h, hlocals, hrests => by
      obtain ⟨value', _, _, hvalue, hreturns, rfl⟩ := yields_ret h
      obtain ⟨hadvances, hreads⟩ := expr_flows hctx.flowing value hheld hvalue
      cases hadvances.locals_eq
      have hheld' := hheld.advance hadvances
      obtain ⟨hmoves, -⟩ := returns_moves hctx.flowing.regime hreads.ty hheld' hreturns
      obtain ⟨-, hv⟩ := expr_recurs hctx.recalling value hheld.store (hmoves.leadsTo hlocals).naming
        hvalue (hrests _ List.mem_cons_self _ List.mem_cons_self)
      have hr := returns_recurs hctx hreads.ty hheld' hreturns hlocals
      unfold stmt
      exact .bind hv fun _ => .bind hr (.pure _)
  termination_by structural s => s

theorem block_recurs : ∀ body : List (Stmt Expr), BlockRecurs P final (block ctx body)
  | [], locals, locals', store, later, body', hheld, h, _, _ => by
      obtain ⟨rfl, rfl, rfl⟩ := yields_block_nil h
      exact .pure _ hheld.store
  | s :: rest, locals, locals', store, later, body', hheld, h, hlocals, hrests => by
      obtain ⟨t, _, _, ts, hstmt, hrest, rfl⟩ := yields_block_cons.mp h
      obtain ⟨ht, hts⟩ := Stmt.blockRests_cons.mp hrests
      obtain ⟨hmoves, -⟩ := stmt_flows hctx.flowing s hheld hstmt
      obtain ⟨hmoves', -⟩ := block_flows hctx.flowing rest hmoves.held hrest
      have hs := stmt_recurs s hheld hstmt (hmoves'.leadsTo hlocals) ht
      have hrest := block_recurs rest hmoves.held hrest hlocals hts
      unfold block
      exact .bind hs fun _ => .bind hrest (.pure _)
  termination_by structural body => body

end

end Recurring

end Annotate

end RankPoly
