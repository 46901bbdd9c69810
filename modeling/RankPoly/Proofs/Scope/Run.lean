import RankPoly.Proofs.Recurs.Stmt
import RankPoly.Proofs.Scope.Basic
import RankPoly.Proofs.Scope.Seal

namespace RankPoly

open Access

-- A variable that is found has a local, of which something is known.
def Locals.Finds (locals : Locals) (var : String) : Prop :=
  ∃ known ty, locals.names.find? var = some known ∧ locals.env.find? known = some ty ∧
    ty ≠ .unknown

namespace Annotate

-- Work that looks up variables, in any order, and changes none of the locals. It fails to find
-- only one of those.
def Looks {α : Type} (vars : List String) (m : Annotate α) : Prop :=
  ∀ locals store, Outcome.Leaves
    (fun result _ => result.2 = locals ∧ ∀ var ∈ vars, locals.Finds var)
    (fun error _ => ∀ name, error = .unboundName name → name ∈ vars ∧ ¬locals.Finds name)
    (outcome m locals store)

variable {α β : Type} {ctx : Context}

namespace Looks

variable {vars vars' : List String}

theorem pure (a : α) : Looks [] (pure a) :=
  fun _ _ => ⟨rfl, nofun⟩

-- What fails anyway may be said to look up any variables.
theorem throw {error : SpecializeError} (h : ∀ name, error ≠ .unboundName name) :
    Looks vars (throw error : Annotate α) :=
  fun _ _ name herror => (h name herror).elim

theorem of_steady {m : Annotate α} (h : Steady m) : Looks [] m := by
  rcases h with ⟨a, rfl⟩ | ⟨error, herror, rfl⟩
  · exact .pure a
  · exact .throw herror

theorem congr {m : Annotate α} (h : Looks vars m) (hvars : ∀ var, var ∈ vars ↔ var ∈ vars') :
    Looks vars' m := by
  intro locals store
  refine (h locals store).imp (fun result _ hdone => ?_) fun error _ hfailed name herror => ?_
  · exact ⟨hdone.1, fun var hvar => hdone.2 var ((hvars var).mpr hvar)⟩
  · exact (hfailed name herror).imp_left (hvars name).mp

theorem bind {m : Annotate α} {k : α → Annotate β} (h : Looks vars m)
    (hk : ∀ a, Looks vars' (k a)) : Looks (vars ++ vars') (m >>= k) := by
  intro locals store
  have hm := h locals store
  rw [outcome_bind]
  rcases houtcome : outcome m locals store with ⟨error | ⟨a, locals'⟩, later⟩ <;>
    rw [houtcome] at hm
  · exact fun name herror => (hm name herror).imp_left (List.mem_append_left _)
  · obtain ⟨rfl, hfound⟩ := hm
    refine (hk a locals' later).imp (fun result _ hdone => ?_) fun error _ hfailed name herror => ?_
    · refine ⟨hdone.1, fun var hvar => ?_⟩
      rcases List.mem_append.mp hvar with hvar | hvar
      · exact hfound var hvar
      · exact hdone.2 var hvar
    · exact (hfailed name herror).imp_left (List.mem_append_right _)

theorem followed {m : Annotate α} {k : α → Annotate β} (h : Looks vars m)
    (hk : ∀ a, Looks [] (k a)) : Looks vars (m >>= k) := by
  simpa using h.bind hk

theorem of_asks (hctx : ctx.Sealed) {m m' : Annotate α} (h : Asks ctx ctx m m') : Looks [] m := by
  induction h with
  | steady hsteady => exact .of_steady hsteady
  | call callee args =>
      intro locals store
      rw [outcome_lift]
      rcases houtcome : Session.outcome (ctx.invoke callee args) store with ⟨error | ty, later⟩
      · rintro name rfl
        exact (hctx callee args store name later houtcome).elim
      · exact ⟨rfl, nofun⟩
  | primWrapper op =>
      intro locals store
      rw [outcome_lift, Session.outcome_primWrapper]
      exact ⟨rfl, nofun⟩
  | bind _ _ ih ihk => exact ih.bind ihk

theorem requireFunc (func : String) {m : Annotate α} (hm : Looks vars m) :
    Looks vars (do
      if !(← Session.isRegistered func) then MonadExcept.throw (SpecializeError.unknownFunc func)
      m) := by
  intro locals store
  rw [outcome_bind, outcome_lift, Session.outcome_isRegistered]
  cases hname : NameMap.contains store.funcs func with
  | false => exact nofun
  | true => exact hm locals store

theorem read (name : String) : Looks [name] (read name) := by
  intro locals store
  have hmissing : ¬locals.Finds name → ∀ other, SpecializeError.unboundName name =
      .unboundName other → other ∈ [name] ∧ ¬locals.Finds other := by
    rintro hnever _ ⟨⟩
    exact ⟨List.mem_singleton_self name, hnever⟩
  rw [outcome_read]
  split
  · rename_i hknown
    refine hmissing ?_
    rintro ⟨_, _, hknown', -⟩
    cases hknown.symm.trans hknown'
  · rename_i known hknown
    split
    · rename_i hty
      refine hmissing ?_
      rintro ⟨_, _, hknown', hty', -⟩
      cases hknown.symm.trans hknown'
      cases hty.symm.trans hty'
    · rename_i hty
      refine hmissing ?_
      rintro ⟨_, _, hknown', hty', hne⟩
      cases hknown.symm.trans hknown'
      cases hty.symm.trans hty'
      exact hne rfl
    · rename_i ty hne hty
      exact ⟨rfl, List.forall_mem_singleton.mpr ⟨known, ty, hknown, hty, hne⟩⟩

-- An axis has to be a literal, and so does the index of a tuple.
theorem constAxis (operand : Option Expr) :
    Looks (Expr.varsOption operand) (constAxis operand) := by
  unfold Annotate.constAxis
  split
  · exact .pure _
  · exact .pure _
  · split
    · exact .pure _
    · exact .throw nofun
  · exact .throw nofun

theorem projectFrom (value : TypedExpr) (elems : List Ty) (selector : Expr) :
    Looks selector.vars (projectFrom value elems selector) := by
  cases selector with
  | const value' => exact .of_steady (.projectFrom _ _ _)
  | _ => exact .throw nofun

end Looks

mutual

theorem expr_looks (hctx : ctx.Sealed) : ∀ e : Expr, Looks e.vars (expr ctx e)
  | .var name => by
      unfold expr
      exact .followed (.read name) fun _ => .pure _
  | .const value => by
      unfold expr
      exact .pure _
  | .tuple es => by
      unfold expr
      exact .followed (exprs_look hctx es) fun _ => .pure _
  | .array es => by
      unfold expr
      exact .bind (.of_steady (.require _ _)) fun _ => .followed (exprs_look hctx es) fun _ =>
        .bind (.of_steady (.ofTy _)) fun _ => .bind (.of_steady (.ofTy _)) fun _ => .pure _
  | .index e i => by
      unfold expr
      refine .bind (expr_looks hctx e) fun value => ?_
      split
      · exact .projectFrom _ _ _
      · exact .followed (expr_looks hctx i) fun _ => .bind (.of_steady (.ofTy _)) fun _ => .pure _
  | .slice a b c => by
      unfold expr
      exact .bind (expr_looks hctx a) fun _ => .bind (expr_looks hctx b) fun _ =>
        .followed (expr_looks hctx c) fun _ => .pure _
  | .attribute e name => by
      unfold expr
      exact .followed (expr_looks hctx e) fun _ => .bind (.of_steady (.fieldType _ _)) fun _ =>
        .pure _
  | .prim op es => by
      unfold expr
      exact .followed (exprs_look hctx es) fun _ => .of_asks hctx (applyPrim_asks ctx ctx op _)
  | .closure func es => by
      unfold expr
      exact .requireFunc func (.followed (exprs_look hctx es) fun _ => .pure _)
  | .invoke f es => by
      unfold expr
      exact .bind (expr_looks hctx f) fun _ => .bind (.of_steady (.requireCallable _)) fun _ =>
        .followed (exprs_look hctx es) fun _ => .bind (.of_asks hctx (.call _ _)) fun _ => .pure _
  | .map f es operand => by
      unfold expr
      -- The axis comes first, but it is a literal, which reads nothing.
      refine Looks.congr (.bind (.constAxis operand) fun _ => .bind (expr_looks hctx f) fun _ =>
        .bind (.of_steady (.requireCallable _)) fun _ => .followed (exprs_look hctx es) fun _ =>
        .of_asks hctx (applyMap_asks ctx ctx _ _ _)) fun var => ?_
      simp only [Expr.vars, List.mem_append, List.not_mem_nil, false_or]
      tauto
  | .fold kind f [e] operand none c => by
      unfold expr
      refine Looks.congr (.bind (.constAxis operand) fun _ => .bind (expr_looks hctx f) fun _ =>
        .bind (.of_steady (.requireCallable _)) fun _ =>
        .bind (optionalCallee_looks hctx c) fun _ => .followed (expr_looks hctx e) fun _ =>
        .of_asks hctx (applyFold_asks ctx ctx _ _ _ _ _)) fun var => ?_
      simp only [Expr.vars, Expr.varsList, Expr.varsOption, List.mem_append, List.not_mem_nil,
        false_or, or_false]
      tauto
  | .fold _ _ _ _ (some _) _ => by
      unfold expr
      exact .throw nofun
  | .fold _ _ [] _ none _ | .fold _ _ (_ :: _ :: _) _ none _ => by
      unfold expr
      exact .throw nofun
  | .allPairs f [a, b] operand => by
      unfold expr
      refine Looks.congr (.bind (.constAxis operand) fun _ => .bind (expr_looks hctx f) fun _ =>
        .bind (.of_steady (.requireCallable _)) fun _ => .bind (expr_looks hctx a) fun _ =>
        .followed (expr_looks hctx b) fun _ =>
        .of_asks hctx (applyAllPairs_asks ctx ctx _ _ _ _)) fun var => ?_
      simp only [Expr.vars, Expr.varsList, List.mem_append, List.not_mem_nil, false_or, or_false]
      tauto
  | .allPairs _ [] _ | .allPairs _ [_] _ | .allPairs _ (_ :: _ :: _ :: _) _ => by
      unfold expr
      exact .throw nofun
  termination_by structural e => e

theorem exprs_look (hctx : ctx.Sealed) : ∀ es : List Expr, Looks (Expr.varsList es) (exprs ctx es)
  | [] => by
      unfold exprs
      exact .pure _
  | e :: es => by
      unfold exprs
      exact .bind (expr_looks hctx e) fun _ => .followed (exprs_look hctx es) fun _ => .pure _
  termination_by structural es => es

theorem optionalCallee_looks (hctx : ctx.Sealed) :
    ∀ c : Option Expr, Looks (Expr.varsOption c) (optionalCallee ctx c)
  | none => by
      unfold optionalCallee
      exact .pure _
  | some c => by
      unfold optionalCallee
      exact .followed (expr_looks hctx c) fun _ => .bind (.of_steady (.requireCallable _)) fun _ =>
        .pure _
  termination_by structural c => c

end

theorem condition_looks (hctx : ctx.Sealed) (cond : Expr) :
    Looks cond.vars (condition ctx cond) :=
  .followed (expr_looks hctx cond) fun _ => .bind (.of_steady (.require _ _)) fun _ => .pure _

-- What is neither a variable nor made of several parts gives none a type as a value is stored.
theorem target_looks (hctx : ctx.Sealed) : ∀ (lhs : Expr) (rhs : Ty),
    (∀ name, lhs ≠ .var name) → (∀ parts, lhs ≠ .tuple parts) → Looks lhs.vars (target ctx lhs rhs)
  | .var name, _, hvar, _ => (hvar name rfl).elim
  | .tuple parts, _, _, htuple => (htuple parts rfl).elim
  | .index value selector, rhs, _, _ => by
      unfold target
      exact .bind (expr_looks hctx value) fun _ => .bind (.of_steady (.require _ _)) fun _ =>
        .followed (expr_looks hctx selector) fun _ => .of_steady (.storeInto _ _ _)
  | .attribute value name, rhs, _, _ => by
      unfold target
      exact .followed (expr_looks hctx value) fun _ => .bind (.of_steady (.fieldType _ _)) fun _ =>
        .bind (.of_steady (.ofTy _)) fun _ => .pure _
  | .const _, _, _, _ | .array _, _, _, _ | .slice .., _, _, _ | .prim .., _, _, _
  | .closure .., _, _, _ | .invoke .., _, _, _ | .map .., _, _, _ | .fold .., _, _, _
  | .allPairs .., _, _, _ => by
      unfold target
      exact .throw nofun

end Annotate

-- All names of variables that have locals are among the known ones.
def Locals.Among (locals : Locals) (known : List String) : Prop :=
  ∀ var, NameMap.contains locals.names var = true → var ∈ known

theorem Locals.Among.trans {locals : Locals} {known known' : List String} (h : locals.Among known)
    (hknown : known ⊆ known') : locals.Among known' :=
  fun var hvar => hknown (h var hvar)

namespace Annotate

-- Work that makes its accesses in order. It comes to a value only if all variables are in
-- scope by then, and if it is one of them that is not found, all those before it were.
def Performs {α : Type} (accesses : List Access) (m : Annotate α) : Prop :=
  ∀ (known : List String) (locals : Locals) (store : Store), locals.Among known →
    Outcome.Leaves
      (fun result _ => InScope known accesses ∧ result.2.Among (known ++ bound accesses))
      (fun error _ => ∀ name, error = .unboundName name →
        ∃ earlier, Reads accesses earlier name ∧ InScope known earlier)
      (outcome m locals store)

variable {α β : Type} {ctx : Context}

namespace Performs

variable {first second : List Access}

theorem of_looks {vars : List String} {m : Annotate α} (h : Looks vars m) :
    Performs [.reads vars] m := by
  intro known locals store hlocals
  refine (h locals store).imp (fun result _ hdone => ?_) fun error _ hfailed name herror => ?_
  · obtain ⟨heq, hfound⟩ := hdone
    refine ⟨inScope_reads.mpr fun var hvar => ?_, ?_⟩
    · obtain ⟨known, -, hknown, -⟩ := hfound var hvar
      exact hlocals var (NameMap.contains_iff.mpr ⟨known, hknown⟩)
    · rw [heq, bound_reads, bound_nil, List.append_nil]
      exact hlocals
  · exact ⟨[], reads_singleton.mpr ⟨rfl, (hfailed name herror).1⟩, inScope_nil⟩

theorem of_steady {m : Annotate α} (h : Steady m) : Performs [] m := by
  intro known locals store hlocals
  refine (Looks.of_steady h locals store).imp (fun result _ hdone => ?_)
    fun error _ hfailed name herror => ?_
  · rw [hdone.1, bound_nil, List.append_nil]
    exact ⟨inScope_nil, hlocals⟩
  · exact (List.not_mem_nil (hfailed name herror).1).elim

theorem pure (a : α) : Performs [] (pure a) :=
  .of_steady (.pure a)

theorem throw {error : SpecializeError} (h : ∀ name, error ≠ .unboundName name) :
    Performs first (throw error : Annotate α) :=
  fun _ _ _ _ name herror => (h name herror).elim

-- What comes second may rely on how the first part has ended.
theorem bind_of {m : Annotate α} {k : α → Annotate β} (h : Performs first m)
    (hk : ∀ {locals locals' store later a}, Yields m locals store a locals' later →
      Performs second (k a)) : Performs (first ++ second) (m >>= k) := by
  intro known locals store hlocals
  have hm := h known locals store hlocals
  rw [outcome_bind]
  rcases houtcome : outcome m locals store with ⟨error | ⟨a, locals'⟩, later⟩ <;>
    rw [houtcome] at hm
  · intro name herror
    obtain ⟨earlier, hread, hscope⟩ := hm name herror
    exact ⟨earlier, reads_append.mpr (Or.inl hread), hscope⟩
  · obtain ⟨hfirst, hmiddle⟩ := hm
    refine (hk houtcome _ locals' later hmiddle).imp (fun result _ hdone => ?_)
      fun error _ hfailed name herror => ?_
    · rw [bound_append, ← List.append_assoc]
      exact ⟨inScope_append.mpr ⟨hfirst, hdone.1⟩, hdone.2⟩
    · obtain ⟨earlier, hread, hscope⟩ := hfailed name herror
      exact ⟨first ++ earlier, reads_append.mpr (Or.inr ⟨earlier, rfl, hread⟩),
        inScope_append.mpr ⟨hfirst, hscope⟩⟩

theorem bind {m : Annotate α} {k : α → Annotate β} (h : Performs first m)
    (hk : ∀ a, Performs second (k a)) : Performs (first ++ second) (m >>= k) :=
  h.bind_of fun _ => hk _

theorem followed {m : Annotate α} {k : α → Annotate β} (h : Performs first m)
    (hk : ∀ a, Performs [] (k a)) : Performs first (m >>= k) := by
  simpa using h.bind hk

theorem get_bind {k : Locals → Annotate β} (hk : ∀ locals, Performs first (k locals)) :
    Performs first (get >>= k) :=
  fun known locals store hlocals => hk locals known locals store hlocals

theorem expr (hctx : ctx.Sealed) (e : Expr) : Performs [.reads e.vars] (expr ctx e) :=
  .of_looks (expr_looks hctx e)

theorem rename (name : String) : Performs [.binds name] (rename name) := by
  intro known locals store hlocals
  rw [outcome_rename]
  refine ⟨inScope_binds name, fun var hvar => ?_⟩
  simp only [bound_binds, bound_nil, List.mem_append, List.mem_singleton]
  exact (NameMap.contains_insert.mp hvar).elim Or.inr fun hvar => Or.inl (hlocals var hvar)

theorem localFor (name : String) : Performs [.binds name] (localFor name) := by
  intro known locals store hlocals
  rw [outcome_localFor]
  split
  · exact ⟨inScope_binds name, hlocals.trans (List.subset_append_left _ _)⟩
  · exact Performs.rename name known locals store hlocals

-- Types change in the environment only.
theorem of_names {m : Annotate α} (h : ∀ locals store, Outcome.Leaves
    (fun result _ => result.2.names = locals.names)
    (fun error _ => ∀ name, error ≠ .unboundName name) (outcome m locals store)) :
    Performs [] m := by
  intro known locals store hlocals
  refine (h locals store).imp (fun result _ hnames => ?_) fun error _ hfailed name herror => ?_
  · refine ⟨inScope_nil, fun var hvar => List.mem_append_left _ (hlocals var ?_)⟩
    rwa [hnames] at hvar
  · exact (hfailed name herror).elim

theorem widen (known : String) (ty : Ty) : Performs [] (widen known ty) := by
  refine .of_names fun locals store => ?_
  rw [outcome_widen]
  split
  · rfl
  · split
    · rfl
    · exact SpecializeError.ofTy_ne_unboundName _

theorem returns (ty : Ty) : Performs [] (returns ty) := by
  refine .of_names fun locals store => ?_
  rw [outcome_returns]
  split
  · rfl
  · split
    · rfl
    · exact SpecializeError.ofTy_ne_unboundName _

theorem refresh (name : String) : Performs [] (liftM (Session.refresh name)) := by
  refine .of_names fun locals store => ?_
  rw [outcome_lift, Session.outcome_refresh]
  rfl

theorem condition (hctx : ctx.Sealed) (cond : Expr) :
    Performs [.reads cond.vars] (condition ctx cond) :=
  .of_looks (condition_looks hctx cond)

end Performs

mutual

theorem target_performs (hctx : ctx.Sealed) :
    ∀ (lhs : Expr) (rhs : Ty), Performs lhs.storing (target ctx lhs rhs)
  | .var name, rhs => by
      unfold target
      exact .followed (.localFor name) fun _ => .bind (.widen _ rhs) fun _ => .pure _
  | .tuple parts, rhs => by
      unfold target
      split
      · rename_i elems
        by_cases hlength : elems.length = parts.length
        · exact .bind (.of_steady (.require _ _)) fun _ =>
            .followed (targets_perform hctx parts elems hlength) fun _ => .pure _
        · simp only [hlength, require]
          exact .throw nofun
      · exact .throw nofun
  | .index .., rhs | .attribute .., rhs | .const _, rhs | .array _, rhs | .slice .., rhs
  | .prim .., rhs | .closure .., rhs | .invoke .., rhs | .map .., rhs | .fold .., rhs
  | .allPairs .., rhs => .of_looks (target_looks hctx _ rhs (by simp) (by simp))
  termination_by structural lhs => lhs

theorem targets_perform (hctx : ctx.Sealed) : ∀ (parts : List Expr) (elems : List Ty),
    elems.length = parts.length → Performs (Expr.storingAll parts) (targets ctx parts elems)
  | [], [], _ => by
      unfold targets
      exact .pure _
  | part :: parts, elem :: elems, hlength => by
      unfold targets
      exact .bind (target_performs hctx part elem) fun _ =>
        .followed (targets_perform hctx parts elems (Nat.succ.inj hlength)) fun _ => .pure _
  termination_by structural parts => parts

end

theorem branchMerges_perform (hctx : ctx.Sealed) : ∀ merges : List (Merge Expr),
    Performs (merges.flatMap Merge.accesses) (branchMerges ctx merges)
  | [] => .pure _
  | merge :: merges => by
      unfold branchMerges
      change Performs (.reads merge.left.vars :: .reads merge.right.vars ::
        .binds merge.var :: merges.flatMap Merge.accesses) _
      exact .bind (.expr hctx merge.left) fun _ => .bind (.expr hctx merge.right) fun _ =>
        .bind (.localFor merge.var) fun _ => .bind (.of_steady (.ofTy _)) fun _ =>
        .bind (.widen _ _) fun _ => .followed (branchMerges_perform hctx merges) fun _ => .pure _

theorem enterLoop_performs (hctx : ctx.Sealed) : ∀ merges : List (Merge Expr),
    Performs (merges.flatMap Merge.entering) (enterLoop ctx merges)
  | [] => .pure _
  | merge :: merges => by
      unfold enterLoop
      change Performs (.reads merge.left.vars :: .binds merge.var ::
        merges.flatMap Merge.entering) _
      exact .bind (.expr hctx merge.left) fun _ => .bind (.localFor merge.var) fun _ =>
        .bind (.widen _ _) fun _ => .followed (enterLoop_performs hctx merges) fun _ => .pure _

theorem closeLoop_performs (hctx : ctx.Sealed) : ∀ (merges : List (Merge Expr))
    {entries : List (String × TypedExpr)}, entries.length = merges.length →
      Performs (merges.map Merge.closing) (closeLoop ctx merges entries)
  | [], [], _ => .pure _
  | merge :: merges, (var, left) :: entries, hlength => by
      unfold closeLoop
      exact .bind (.expr hctx merge.right) fun _ => .bind (.widen _ _) fun _ =>
        .followed (closeLoop_performs hctx merges (Nat.succ.inj hlength)) fun _ => .pure _

theorem loopPass_performs (hctx : ctx.Sealed) (cond : Expr) {body : Annotate (List TypedStmt)}
    {accesses : List Access}
    (hbody : Performs accesses body) (merges : List (Merge Expr)) :
    Performs (merges.flatMap Merge.entering ++ (.reads cond.vars :: (accesses ++
      merges.map Merge.closing))) (loopPass ctx cond body merges) :=
  .bind_of (enterLoop_performs hctx merges) fun hentries => .get_bind fun _ =>
    .bind (.condition hctx cond) fun _ => .bind hbody fun _ =>
    .followed (closeLoop_performs hctx merges (enterLoop_length merges hentries)) fun _ =>
    .get_bind fun _ => .pure _

-- Each pass but the first finds more than the one before it has.
theorem settle_performs {pass : Annotate (TypedStmt × Bool)} {accesses : List Access}
    (hpass : Performs accesses pass) (limit : Nat) :
    ∀ left : Nat, Performs accesses (settle limit pass left)
  | 0 => .throw nofun
  | left + 1 => by
      intro known locals store hlocals
      have hfirst := hpass known locals store hlocals
      unfold settle
      rw [outcome_bind]
      rcases houtcome : outcome pass locals store with
        ⟨error | ⟨⟨stmt, settled⟩, locals'⟩, later⟩ <;> rw [houtcome] at hfirst
      · exact hfirst
      · obtain ⟨hscope, hmiddle⟩ := hfirst
        cases settled with
        | true => exact ⟨hscope, hmiddle⟩
        | false =>
            refine (settle_performs hpass limit left _ locals' later hmiddle).imp
              (fun result _ hdone => ⟨hscope, hdone.2.trans ?_⟩)
              fun error _ hfailed name herror => ?_
            · simp
            · obtain ⟨earlier, hread, -⟩ := hfailed name herror
              exact ⟨earlier, hread, hscope.initial hread.initial⟩

mutual

theorem stmt_performs (hctx : ctx.Sealed) : ∀ s : Stmt Expr, Performs s.accesses (stmt ctx s)
  | .assign lhs rhs => by
      unfold stmt
      exact .bind (.expr hctx rhs) fun _ => .followed (target_performs hctx lhs _) fun _ => .pure _
  | .branch cond onTrue onFalse merges => by
      unfold stmt Stmt.accesses
      rw [List.append_assoc]
      exact .bind (.condition hctx cond) fun _ => .bind (block_performs hctx onTrue) fun _ =>
        .bind (block_performs hctx onFalse) fun _ =>
        .followed (branchMerges_perform hctx merges) fun _ => .pure _
  | .loop cond body merges => by
      unfold stmt
      exact settle_performs (loopPass_performs hctx cond (block_performs hctx body) merges) _ _
  | .ret value => by
      unfold stmt
      exact .followed (.expr hctx value) fun _ => .bind (.returns _) fun _ => .pure _
  termination_by structural s => s

theorem block_performs (hctx : ctx.Sealed) : ∀ body : List (Stmt Expr),
    Performs (Stmt.accessesBlock body) (block ctx body)
  | [] => by
      unfold block
      exact .pure _
  | first :: rest => by
      unfold block
      exact .bind (stmt_performs hctx first) fun _ => .followed (block_performs hctx rest) fun _ =>
        .pure _
  termination_by structural body => body

end

theorem bindParams_performs (params : List (String × Ty)) :
    Performs ((params.map Prod.fst).map .binds) (bindParams params) := by
  induction params with
  | nil => exact .pure _
  | cons param rest ih =>
      exact .bind (.rename param.1) fun _ => .bind (.widen _ param.2) fun _ => ih

theorem func_performs (hctx : ctx.Sealed) (source : Func) (args : List Ty) :
    Performs (source.params.names.map .binds ++ Stmt.accessesBlock source.body)
      (func ctx source args) := by
  unfold func
  split
  · exact .throw nofun
  · rename_i binding hbinding
    rw [← Params.bind_names hbinding]
    exact .bind (bindParams_performs binding.params) fun _ => .get_bind fun _ =>
      .followed (block_performs hctx source.body) fun _ => .get_bind fun _ =>
      .bind (.refresh source.name) fun _ => .pure _

end Annotate

end RankPoly
