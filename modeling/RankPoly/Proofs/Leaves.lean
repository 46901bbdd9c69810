import RankPoly.Proofs.Lockstep.Func
import RankPoly.Proofs.Steady

namespace RankPoly

-- What holds of the value and of the store that are left behind after a success, or of
-- the error and the store after a failure.
def Outcome.Leaves {α : Type} (done : α → Store → Prop) (failed : SpecializeError → Store → Prop) :
    Outcome α → Prop
  | (.ok a, later) => done a later
  | (.error error, later) => failed error later

theorem Outcome.Leaves.andThen {α β : Type} {done : α → Store → Prop} {done' : β → Store → Prop}
    {failed : SpecializeError → Store → Prop} {o : Outcome α} {k : α → Store → Outcome β}
    (h : o.Leaves done failed) (hk : ∀ a later, done a later → (k a later).Leaves done' failed) :
    (o.andThen k).Leaves done' failed := by
  rcases o with ⟨error | a, later⟩
  · exact h
  · exact hk a later h

theorem Outcome.Leaves.imp {α : Type} {done done' : α → Store → Prop}
    {failed failed' : SpecializeError → Store → Prop} {o : Outcome α} (h : o.Leaves done failed)
    (hdone : ∀ a later, done a later → done' a later)
    (hfailed : ∀ error later, failed error later → failed' error later) :
    o.Leaves done' failed' := by
  rcases o with ⟨error | a, later⟩
  · exact hfailed error later h
  · exact hdone a later h

theorem Outcome.Leaves.exists_ok {α : Type} {done : α → Store → Prop}
    {failed : SpecializeError → Store → Prop} {o : Outcome α} (h : o.Leaves done failed)
    (hfailed : ∀ error later, ¬failed error later) : ∃ a later, o = (.ok a, later) ∧ done a later := by
  rcases o with ⟨error | a, later⟩
  · exact (hfailed error later h).elim
  · exact ⟨a, later, rfl, h⟩

-- With one property for both, it holds whatever the outcome.
theorem Outcome.leaves_iff {α : Type} {P : Store → Prop} {o : Outcome α} :
    o.Leaves (fun _ => P) (fun _ => P) ↔ P o.2 := by
  rcases o with ⟨error | a, later⟩ <;> rfl

namespace Annotate

open Session (withWrapper)

-- What the steps have to keep that look at the locals and do not change them: what holds of
-- the locals and the store for as long as nothing has failed. Annotations fail by themselves,
-- or because calls fail. For as long as it holds, calls have the same outcomes in both
-- surroundings.
structure Reading (done : Locals → Store → Prop) (failed : SpecializeError → Store → Prop)
    (ctx ctx' : Context) : Prop where
  limit : ctx'.loopLimit = ctx.loopLimit
  fresh : ∀ {locals store} name, done locals store →
    done locals { store with fresh := (store.fresh.refresh name).2 }
  addWrapper : ∀ {locals store} op, done locals store → done locals (withWrapper op store)
  fails : ∀ {locals store} error, done locals store → failed error store
  same : ∀ {locals store} callee args, done locals store →
    Session.outcome (ctx'.invoke callee args) store = Session.outcome (ctx.invoke callee args) store
  invoke : ∀ {locals store} callee args, done locals store →
    (Session.outcome (ctx.invoke callee args) store).Leaves (fun _ => done locals) failed

-- What the steps of an annotation have to keep for all of it to do so. Variables get types
-- that have been found, which are those of expressions, of the parts of tuples, and of what
-- values join to.
structure Leaving (done : Locals → Store → Prop) (failed : SpecializeError → Store → Prop)
    (found : Ty → Prop) (ctx ctx' : Context) : Prop extends Reading done failed ctx ctx' where
  rename : ∀ {locals store name known locals' later}, done locals store →
    Yields (rename name) locals store known locals' later → done locals' later
  widen : ∀ {locals store known ty widened locals' later}, done locals store → found ty →
    Yields (widen known ty) locals store widened locals' later → done locals' later
  returns : ∀ {locals store ty u locals' later}, done locals store → found ty →
    Yields (returns ty) locals store u locals' later → done locals' later
  value : ∀ {locals store e t locals' later}, done locals store →
    Yields (expr ctx e) locals store t locals' later → found t.ty
  elem : ∀ {elems ty}, found (.tuple elems) → ty ∈ elems → found ty
  join : ∀ {lhs rhs ty}, found lhs → found rhs → lhs.combine rhs = .ok ty → found ty

-- Where only the store matters, neither names nor types do.
theorem Leaving.of_store {P : Store → Prop} {failed : SpecializeError → Store → Prop}
    {ctx ctx' : Context} (hlimit : ctx'.loopLimit = ctx.loopLimit)
    (hfresh : ∀ {store} name, P store → P { store with fresh := (store.fresh.refresh name).2 })
    (hwrapper : ∀ {store} op, P store → P (withWrapper op store))
    (hfails : ∀ {store} error, P store → failed error store)
    (hsame : ∀ {store} callee args, P store → Session.outcome (ctx'.invoke callee args) store =
      Session.outcome (ctx.invoke callee args) store)
    (hinvoke : ∀ {store} callee args, P store →
      (Session.outcome (ctx.invoke callee args) store).Leaves (fun _ => P) failed) :
    Leaving (fun _ => P) failed (fun _ => True) ctx ctx' where
  limit := hlimit
  fresh := hfresh
  addWrapper := hwrapper
  fails := hfails
  same := hsame
  invoke := hinvoke
  rename hstore h := by
    obtain ⟨-, -, rfl⟩ := yields_rename.mp h
    exact hfresh _ hstore
  widen hstore _ h := by
    obtain ⟨-, -, rfl⟩ := yields_widen.mp h
    exact hstore
  returns hstore _ h := by
    obtain ⟨_, -, -, rfl⟩ := yields_returns.mp h
    exact hstore
  value _ _ := trivial
  elem _ _ := trivial
  join _ _ _ := trivial

-- Work that leaves behind what it is to leave behind, wherever it is done, and that comes
-- to the same in both surroundings.
def Leaves {α : Type} (done : Locals → Store → Prop) (failed : SpecializeError → Store → Prop)
    (m m' : Annotate α) : Prop :=
  ∀ locals store, done locals store → outcome m' locals store = outcome m locals store ∧
    (outcome m locals store).Leaves (fun result => done result.2) failed

variable {α β : Type} {done : Locals → Store → Prop} {failed : SpecializeError → Store → Prop}
  {found : Ty → Prop} {ctx ctx' : Context}

namespace Leaves

theorem yields {m m' : Annotate α} (h : Leaves done failed m m') {locals locals' : Locals}
    {store later : Store} {a : α} (hstart : done locals store)
    (hyields : Yields m locals store a locals' later) : done locals' later := by
  have hend := (h locals store hstart).2
  unfold Yields at hyields
  rwa [hyields] at hend

-- Work that does not depend on the surroundings.
theorem alone {m : Annotate α} (h : ∀ locals store, done locals store →
    (outcome m locals store).Leaves (fun result => done result.2) failed) :
    Leaves done failed m m :=
  fun locals store hstart => ⟨rfl, h locals store hstart⟩

theorem pure (a : α) : Leaves done failed (pure a) (pure a) :=
  .alone fun _ _ hstart => hstart

theorem bind {m m' : Annotate α} {k k' : α → Annotate β} (h : Leaves done failed m m')
    (hk : ∀ a, Leaves done failed (k a) (k' a)) : Leaves done failed (m >>= k) (m' >>= k') := by
  intro locals store hstart
  obtain ⟨hsame, hend⟩ := h locals store hstart
  rw [outcome_bind, outcome_bind, hsame]
  rcases houtcome : outcome m locals store with ⟨error | result, later⟩ <;> rw [houtcome] at hend
  · exact ⟨rfl, hend⟩
  · exact hk result.1 result.2 later hend

theorem get_bind {k k' : Locals → Annotate β} (hk : ∀ locals, Leaves done failed (k locals)
    (k' locals)) : Leaves done failed (get >>= k) (get >>= k') :=
  fun locals store hstart => hk locals locals store hstart

theorem isRegistered (func : String) :
    Leaves done failed (liftM (Session.isRegistered func)) (liftM (Session.isRegistered func)) :=
  .alone fun _ _ hstart => hstart

section Reading

variable (hctx : Reading done failed ctx ctx')
include hctx

theorem throw (error : SpecializeError) :
    Leaves done failed (throw error : Annotate α) (throw error) :=
  .alone fun _ _ hstart => hctx.fails error hstart

theorem of_steady {m : Annotate α} (h : Steady m) : Leaves done failed m m := by
  rcases h with ⟨a, rfl⟩ | ⟨error, -, rfl⟩
  · exact .pure a
  · exact .throw hctx error

-- Steps that, when they fail, have left the store as it is.
theorem of_yields {m : Annotate α}
    (hdone : ∀ {locals store a locals' later}, done locals store →
      Yields m locals store a locals' later → done locals' later)
    (hfails : ∀ {locals store error later}, outcome m locals store = (.error error, later) →
      later = store) : Leaves done failed m m := by
  refine .alone fun locals store hstart => ?_
  rcases houtcome : outcome m locals store with ⟨error | result, later⟩
  · cases hfails houtcome
    exact hctx.fails error hstart
  · exact hdone hstart houtcome

theorem call (callee : Ty) (args : List Ty) :
    Leaves done failed (liftM (ctx.invoke callee args)) (liftM (ctx'.invoke callee args)) := by
  intro locals store hstart
  rw [outcome_lift, outcome_lift, hctx.same callee args hstart]
  exact ⟨rfl, (hctx.invoke callee args hstart).andThen fun _ _ hlater => hlater⟩

theorem primWrapper (op : Prim) :
    Leaves done failed (liftM (Session.primWrapper op)) (liftM (Session.primWrapper op)) := by
  refine .alone fun locals store hstart => ?_
  rw [outcome_lift, Session.outcome_primWrapper]
  exact hctx.addWrapper op hstart

theorem refresh (name : String) :
    Leaves done failed (liftM (Session.refresh name)) (liftM (Session.refresh name)) := by
  refine .alone fun locals store hstart => ?_
  rw [outcome_lift, Session.outcome_refresh]
  exact hctx.fresh name hstart

theorem read (name : String) : Leaves done failed (read name) (read name) := by
  refine .alone fun locals store hstart => ?_
  rw [outcome_read]
  split
  · exact hctx.fails _ hstart
  · split
    · exact hctx.fails _ hstart
    · exact hctx.fails _ hstart
    · exact hstart

end Reading

section Leaving

variable (hctx : Leaving done failed found ctx ctx')
include hctx

theorem rename (name : String) : Leaves done failed (rename name) (rename name) :=
  .alone fun _ _ hstart => hctx.rename hstart (outcome_rename ..)

theorem localFor (name : String) : Leaves done failed (localFor name) (localFor name) := by
  refine .alone fun locals store hstart => ?_
  rw [outcome_localFor]
  split
  · exact hstart
  · exact (Leaves.rename hctx name locals store hstart).2

theorem widen (known : String) {ty : Ty} (hty : found ty) :
    Leaves done failed (widen known ty) (widen known ty) := by
  refine .of_yields hctx.toReading (fun hstart h => hctx.widen hstart hty h) fun h => ?_
  rw [outcome_widen] at h
  split at h
  · cases h
  · split at h <;> cases h
    rfl

theorem returns {ty : Ty} (hty : found ty) :
    Leaves done failed (returns ty) (returns ty) := by
  refine .of_yields hctx.toReading (fun hstart h => hctx.returns hstart hty h) fun h => ?_
  rw [outcome_returns] at h
  split at h
  · cases h
  · split at h <;> cases h
    rfl

theorem join_bind {lhs rhs : Ty} {k k' : Ty → Annotate β} (hlhs : found lhs) (hrhs : found rhs)
    (hk : ∀ ty, found ty → Leaves done failed (k ty) (k' ty)) :
    Leaves done failed (ofTy (lhs.combine rhs) >>= k) (ofTy (lhs.combine rhs) >>= k') := by
  cases hjoin : lhs.combine rhs with
  | ok ty => exact hk ty (hctx.join hlhs hrhs hjoin)
  | error error => exact .throw hctx.toReading _

end Leaving

end Leaves

theorem Asks.leaves (hctx : Reading done failed ctx ctx') {m m' : Annotate α}
    (h : Asks ctx ctx' m m') : Leaves done failed m m' := by
  induction h with
  | steady hsteady => exact .of_steady hctx hsteady
  | call callee args => exact .call hctx callee args
  | primWrapper op => exact .primWrapper hctx op
  | bind _ _ ih ihk => exact ih.bind ihk

mutual

theorem expr_leaves (hctx : Reading done failed ctx ctx') :
    ∀ e : Expr, Leaves done failed (expr ctx e) (expr ctx' e)
  | .var name => by
      unfold expr
      exact .bind (.read hctx name) fun _ => .pure _
  | .const value => by
      unfold expr
      exact .pure _
  | .tuple es => by
      unfold expr
      exact .bind (exprs_leave hctx es) fun _ => .pure _
  | .array es => by
      unfold expr
      exact .bind (.of_steady hctx (.require _ _)) fun _ => .bind (exprs_leave hctx es) fun _ =>
        .bind (.of_steady hctx (.ofTy _)) fun _ => .bind (.of_steady hctx (.ofTy _)) fun _ =>
        .pure _
  | .index e i => by
      unfold expr
      refine .bind (expr_leaves hctx e) fun value => ?_
      split
      · exact .of_steady hctx (.projectFrom _ _ _)
      · exact .bind (expr_leaves hctx i) fun _ => .bind (.of_steady hctx (.ofTy _)) fun _ => .pure _
  | .slice a b c => by
      unfold expr
      exact .bind (expr_leaves hctx a) fun _ => .bind (expr_leaves hctx b) fun _ =>
        .bind (expr_leaves hctx c) fun _ => .pure _
  | .attribute e name => by
      unfold expr
      exact .bind (expr_leaves hctx e) fun _ => .bind (.of_steady hctx (.fieldType _ _)) fun _ =>
        .pure _
  | .prim op es => by
      unfold expr
      exact .bind (exprs_leave hctx es) fun _ => (applyPrim_asks ctx ctx' op _).leaves hctx
  | .closure func es => by
      unfold expr
      refine .bind (.isRegistered func) fun known => ?_
      cases known with
      | false => exact .throw hctx _
      | true => exact .bind (exprs_leave hctx es) fun _ => .pure _
  | .invoke f es => by
      unfold expr
      exact .bind (expr_leaves hctx f) fun _ =>
        .bind (.of_steady hctx (.requireCallable _)) fun _ => .bind (exprs_leave hctx es) fun _ =>
        .bind (.call hctx _ _) fun _ => .pure _
  | .map f es operand => by
      unfold expr
      exact .bind (.of_steady hctx (.constAxis _)) fun _ => .bind (expr_leaves hctx f) fun _ =>
        .bind (.of_steady hctx (.requireCallable _)) fun _ => .bind (exprs_leave hctx es) fun _ =>
        (applyMap_asks ctx ctx' _ _ _).leaves hctx
  | .fold kind f [e] operand none c => by
      unfold expr
      exact .bind (.of_steady hctx (.constAxis _)) fun _ => .bind (expr_leaves hctx f) fun _ =>
        .bind (.of_steady hctx (.requireCallable _)) fun _ =>
        .bind (optionalCallee_leaves hctx c) fun _ => .bind (expr_leaves hctx e) fun _ =>
        (applyFold_asks ctx ctx' _ _ _ _ _).leaves hctx
  | .fold _ _ _ _ (some _) _ => by
      unfold expr
      exact .throw hctx _
  | .fold _ _ [] _ none _ | .fold _ _ (_ :: _ :: _) _ none _ => by
      unfold expr
      exact .throw hctx _
  | .allPairs f [a, b] operand => by
      unfold expr
      exact .bind (.of_steady hctx (.constAxis _)) fun _ => .bind (expr_leaves hctx f) fun _ =>
        .bind (.of_steady hctx (.requireCallable _)) fun _ => .bind (expr_leaves hctx a) fun _ =>
        .bind (expr_leaves hctx b) fun _ => (applyAllPairs_asks ctx ctx' _ _ _ _).leaves hctx
  | .allPairs _ [] _ | .allPairs _ [_] _ | .allPairs _ (_ :: _ :: _ :: _) _ => by
      unfold expr
      exact .throw hctx _
  termination_by structural e => e

theorem exprs_leave (hctx : Reading done failed ctx ctx') :
    ∀ es : List Expr, Leaves done failed (exprs ctx es) (exprs ctx' es)
  | [] => by
      unfold exprs
      exact .pure _
  | e :: es => by
      unfold exprs
      exact .bind (expr_leaves hctx e) fun _ => .bind (exprs_leave hctx es) fun _ => .pure _
  termination_by structural es => es

theorem optionalCallee_leaves (hctx : Reading done failed ctx ctx') :
    ∀ c : Option Expr, Leaves done failed (optionalCallee ctx c) (optionalCallee ctx' c)
  | none => by
      unfold optionalCallee
      exact .pure _
  | some c => by
      unfold optionalCallee
      exact .bind (expr_leaves hctx c) fun _ =>
        .bind (.of_steady hctx (.requireCallable _)) fun _ => .pure _
  termination_by structural c => c

end

-- What type an expression has has been found.
theorem Leaves.expr_bind (hctx : Leaving done failed found ctx ctx') (e : Expr)
    {k k' : TypedExpr → Annotate β} (hk : ∀ t, found t.ty → Leaves done failed (k t) (k' t)) :
    Leaves done failed (expr ctx e >>= k) (expr ctx' e >>= k') := by
  intro locals store hstart
  obtain ⟨hsame, hexpr⟩ := expr_leaves hctx.toReading e locals store hstart
  rw [outcome_bind, outcome_bind, hsame]
  rcases houtcome : outcome (expr ctx e) locals store with ⟨error | ⟨t, locals'⟩, later⟩ <;>
    rw [houtcome] at hexpr
  · exact ⟨rfl, hexpr⟩
  · exact hk t (hctx.value hstart houtcome) locals' later hexpr

theorem condition_leaves (hctx : Reading done failed ctx ctx') (cond : Expr) :
    Leaves done failed (condition ctx cond) (condition ctx' cond) :=
  .bind (expr_leaves hctx cond) fun _ => .bind (.of_steady hctx (.require _ _)) fun _ => .pure _

mutual

theorem target_leaves (hctx : Leaving done failed found ctx ctx') :
    ∀ (lhs : Expr) {rhs : Ty}, found rhs →
      Leaves done failed (target ctx lhs rhs) (target ctx' lhs rhs)
  | .var name, rhs, hrhs => by
      unfold target
      exact .bind (.localFor hctx name) fun known => .bind (.widen hctx known hrhs) fun _ => .pure _
  | .tuple parts, rhs, hrhs => by
      unfold target
      split
      · exact .bind (.of_steady hctx.toReading (.require _ _)) fun _ =>
          .bind (targets_leave hctx parts fun _ hty => hctx.elem hrhs hty) fun _ => .pure _
      · exact .throw hctx.toReading _
  | .index value selector, rhs, _ => by
      unfold target
      exact .bind (expr_leaves hctx.toReading value) fun _ =>
        .bind (.of_steady hctx.toReading (.require _ _)) fun _ =>
        .bind (expr_leaves hctx.toReading selector) fun _ =>
        .of_steady hctx.toReading (.storeInto _ _ _)
  | .attribute value name, rhs, _ => by
      unfold target
      exact .bind (expr_leaves hctx.toReading value) fun _ =>
        .bind (.of_steady hctx.toReading (.fieldType _ _)) fun _ =>
        .bind (.of_steady hctx.toReading (.ofTy _)) fun _ => .pure _
  | .const _, _, _ | .array _, _, _ | .slice .., _, _ | .prim .., _, _ | .closure .., _, _
  | .invoke .., _, _ | .map .., _, _ | .fold .., _, _ | .allPairs .., _, _ => by
      unfold target
      exact .throw hctx.toReading _
  termination_by structural lhs => lhs

theorem targets_leave (hctx : Leaving done failed found ctx ctx') :
    ∀ (parts : List Expr) {elems : List Ty}, (∀ ty ∈ elems, found ty) →
      Leaves done failed (targets ctx parts elems) (targets ctx' parts elems)
  | [], _, _ | _ :: _, [], _ => by
      unfold targets
      exact .pure _
  | part :: parts, elem :: elems, helems => by
      obtain ⟨helem, helems⟩ := List.forall_mem_cons.mp helems
      unfold targets
      exact .bind (target_leaves hctx part helem) fun _ =>
        .bind (targets_leave hctx parts helems) fun _ => .pure _
  termination_by structural parts => parts

end

theorem branchMerges_leave (hctx : Leaving done failed found ctx ctx') :
    ∀ merges : List (Merge Expr),
      Leaves done failed (branchMerges ctx merges) (branchMerges ctx' merges)
  | [] => .pure _
  | merge :: merges => by
      unfold branchMerges
      exact .expr_bind hctx merge.left fun _ hleft => .expr_bind hctx merge.right fun _ hright =>
        .bind (.localFor hctx merge.var) fun var => .join_bind hctx hleft hright fun _ hboth =>
        .bind (.widen hctx var hboth) fun _ => .bind (branchMerges_leave hctx merges) fun _ =>
        .pure _

theorem enterLoop_leaves (hctx : Leaving done failed found ctx ctx') :
    ∀ merges : List (Merge Expr), Leaves done failed (enterLoop ctx merges) (enterLoop ctx' merges)
  | [] => .pure _
  | merge :: merges => by
      unfold enterLoop
      exact .expr_bind hctx merge.left fun _ hleft => .bind (.localFor hctx merge.var) fun var =>
        .bind (.widen hctx var hleft) fun _ => .bind (enterLoop_leaves hctx merges) fun _ => .pure _

theorem closeLoop_leaves (hctx : Leaving done failed found ctx ctx') :
    ∀ (merges : List (Merge Expr)) (entries : List (String × TypedExpr)),
      Leaves done failed (closeLoop ctx merges entries) (closeLoop ctx' merges entries)
  | [], _ | _ :: _, [] => by
      unfold closeLoop
      exact .pure _
  | merge :: merges, (var, left) :: entries => by
      unfold closeLoop
      exact .expr_bind hctx merge.right fun _ hright => .bind (.widen hctx var hright) fun _ =>
        .bind (closeLoop_leaves hctx merges entries) fun _ => .pure _

theorem loopPass_leaves (hctx : Leaving done failed found ctx ctx') (cond : Expr)
    {body body' : Annotate (List TypedStmt)} (hbody : Leaves done failed body body')
    (merges : List (Merge Expr)) :
    Leaves done failed (loopPass ctx cond body merges) (loopPass ctx' cond body' merges) :=
  .bind (enterLoop_leaves hctx merges) fun entries => .get_bind fun _ =>
    .bind (condition_leaves hctx.toReading cond) fun _ => .bind hbody fun _ =>
    .bind (closeLoop_leaves hctx merges entries) fun _ => .get_bind fun _ => .pure _

-- However many passes a loop takes, each starts where the one before it has ended.
theorem settle_leaves (hctx : Leaving done failed found ctx ctx') 
    {pass pass' : Annotate (TypedStmt × Bool)} (hpass : Leaves done failed pass pass')
    (limit : Nat) :
    ∀ left : Nat, Leaves done failed (settle limit pass left) (settle limit pass' left)
  | 0 => .throw hctx.toReading _
  | left + 1 => .bind hpass fun (stmt, settled) => by
      cases settled with
      | true => exact .pure stmt
      | false => exact settle_leaves hctx hpass limit left

mutual

theorem stmt_leaves (hctx : Leaving done failed found ctx ctx') :
    ∀ s : Stmt Expr, Leaves done failed (stmt ctx s) (stmt ctx' s)
  | .assign lhs rhs => by
      unfold stmt
      exact .expr_bind hctx rhs fun _ hrhs => .bind (target_leaves hctx lhs hrhs) fun _ => .pure _
  | .branch cond onTrue onFalse merges => by
      unfold stmt
      exact .bind (condition_leaves hctx.toReading cond) fun _ =>
        .bind (block_leaves hctx onTrue) fun _ => .bind (block_leaves hctx onFalse) fun _ =>
        .bind (branchMerges_leave hctx merges) fun _ => .pure _
  | .loop cond body merges => by
      unfold stmt
      rw [hctx.limit]
      exact settle_leaves hctx (loopPass_leaves hctx cond (block_leaves hctx body) merges) _ _
  | .ret value => by
      unfold stmt
      exact .expr_bind hctx value fun _ hvalue => .bind (.returns hctx hvalue) fun _ => .pure _
  termination_by structural s => s

theorem block_leaves (hctx : Leaving done failed found ctx ctx') :
    ∀ stmts : List (Stmt Expr), Leaves done failed (block ctx stmts) (block ctx' stmts)
  | [] => by
      unfold block
      exact .pure _
  | first :: rest => by
      unfold block
      exact .bind (stmt_leaves hctx first) fun _ => .bind (block_leaves hctx rest) fun _ => .pure _
  termination_by structural stmts => stmts

end

theorem bindParams_leaves (hctx : Leaving done failed found ctx ctx') :
    ∀ {params : List (String × Ty)}, (∀ param ∈ params, found param.2) →
      Leaves done failed (bindParams params) (bindParams params)
  | [], _ => .pure _
  | (name, ty) :: rest, hparams => by
      obtain ⟨hty, hrest⟩ := List.forall_mem_cons.mp hparams
      exact .bind (.rename hctx name) fun known => .bind (.widen hctx known hty) fun _ =>
        bindParams_leaves hctx hrest

theorem func_leaves (hctx : Leaving done failed found ctx ctx') (source : Func) (args : List Ty)
    (hparams : ∀ binding, source.params.bind args = .ok binding →
      ∀ param ∈ binding.params, found param.2) :
    Leaves done failed (func ctx source args) (func ctx' source args) := by
  unfold func
  split
  · exact .throw hctx.toReading _
  · rename_i binding hbinding
    exact .bind (bindParams_leaves hctx (hparams binding hbinding)) fun _ => .get_bind fun _ =>
      .bind (block_leaves hctx source.body) fun _ => .get_bind fun _ =>
      .bind (.refresh hctx.toReading source.name) fun _ => .pure _

end Annotate

-- Annotating a function leaves the store as its calls, the names that it draws and the
-- wrappers that it adds do.
theorem Func.annotate_leaves {P : Store → Prop} {failed : SpecializeError → Store → Prop}
    {ctx ctx' : Annotate.Context}
    (hctx : Annotate.Leaving (fun _ => P) failed (fun _ => True) ctx ctx') (func : Func)
    (args : List Ty) {store : Store} (hstore : P store) :
    (Session.outcome (func.annotate ctx args) store).Leaves (fun _ => P) failed := by
  have hfunc := Annotate.func_leaves hctx func args fun _ _ _ _ => trivial
  rw [Comparison.outcome_annotate]
  exact (hfunc {} store hstore).2.andThen fun _ _ hlater => hlater

-- Nothing else in its surroundings matters to what comes of it.
theorem Func.annotate_congr {P : Store → Prop} {failed : SpecializeError → Store → Prop}
    {ctx ctx' : Annotate.Context}
    (hctx : Annotate.Leaving (fun _ => P) failed (fun _ => True) ctx ctx') (func : Func)
    (args : List Ty) {store : Store} (hstore : P store) :
    Session.outcome (func.annotate ctx' args) store =
      Session.outcome (func.annotate ctx args) store := by
  have hfunc := Annotate.func_leaves hctx func args fun _ _ _ _ => trivial
  rw [Comparison.outcome_annotate, Comparison.outcome_annotate, (hfunc {} store hstore).1]

end RankPoly
