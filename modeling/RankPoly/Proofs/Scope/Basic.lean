import RankPoly.Proofs.Renaming.Source

namespace RankPoly

-- What becomes of variables as a function is typed: an expression looks up all of its own,
-- and only a statement gives types to some.
inductive Access where
  | reads (vars : List String)
  | binds (var : String)

namespace Access

-- The variables that are given types.
def bound (accesses : List Access) : List String :=
  accesses.filterMap fun
    | .reads _ => none
    | .binds var => some var

-- A variable is read once the earlier accesses have been made.
def Reads (accesses earlier : List Access) (var : String) : Prop :=
  ∃ vars later, accesses = earlier ++ .reads vars :: later ∧ var ∈ vars

-- All variables that are read are known from the start, or have been bound before.
def InScope (known : List String) (accesses : List Access) : Prop :=
  ∀ ⦃earlier : List Access⦄ ⦃var : String⦄, Reads accesses earlier var →
    var ∈ known ++ bound earlier

-- No variable that is read has been bound by the first accesses only.
def Apart (known : List String) (first accesses : List Access) : Prop :=
  ∀ ⦃earlier : List Access⦄ ⦃var : String⦄, Reads accesses earlier var → var ∈ bound first →
    var ∈ known ++ bound earlier

-- The variables in the order in which they are read, each with whether it is found.
def lookups (known : List String) : List Access → List (String × Bool)
  | [] => []
  | .reads vars :: rest => vars.map (fun var => (var, decide (var ∈ known))) ++ lookups known rest
  | .binds var :: rest => lookups (known ++ [var]) rest

variable {known known' : List String} {accesses accesses' earlier first second : List Access}
  {var : String}

@[simp] theorem bound_nil : bound [] = [] := rfl

@[simp] theorem bound_reads (vars : List String) (rest : List Access) :
    bound (.reads vars :: rest) = bound rest := rfl

@[simp] theorem bound_binds (var : String) (rest : List Access) :
    bound (.binds var :: rest) = var :: bound rest := rfl

@[simp] theorem bound_append (first second : List Access) :
    bound (first ++ second) = bound first ++ bound second :=
  List.filterMap_append

theorem bound_map_binds (vars : List String) : bound (vars.map .binds) = vars := by
  induction vars with
  | nil => rfl
  | cons var vars ih => rw [List.map_cons, bound_binds, ih]

theorem not_reads_nil : ¬Reads [] earlier var := by
  rintro ⟨vars, later, h, -⟩
  simp at h

theorem reads_cons {access : Access} {rest : List Access} :
    Reads (access :: rest) earlier var ↔
      (earlier = [] ∧ ∃ vars, access = .reads vars ∧ var ∈ vars) ∨
        ∃ earlier', earlier = access :: earlier' ∧ Reads rest earlier' var := by
  constructor
  · rintro ⟨vars, later, heq, hvar⟩
    cases earlier with
    | nil => exact Or.inl ⟨rfl, vars, (List.cons.inj heq).1, hvar⟩
    | cons other earlier =>
        obtain ⟨rfl, rfl⟩ := List.cons.inj heq
        exact Or.inr ⟨earlier, rfl, vars, later, rfl, hvar⟩
  · rintro (⟨rfl, vars, rfl, hvar⟩ | ⟨earlier', rfl, vars, later, rfl, hvar⟩)
    · exact ⟨vars, rest, rfl, hvar⟩
    · exact ⟨vars, later, rfl, hvar⟩

theorem reads_singleton {vars : List String} :
    Reads [.reads vars] earlier var ↔ earlier = [] ∧ var ∈ vars := by
  simp [reads_cons, not_reads_nil]

theorem reads_append :
    Reads (first ++ second) earlier var ↔
      Reads first earlier var ∨
        ∃ earlier', earlier = first ++ earlier' ∧ Reads second earlier' var := by
  induction first generalizing earlier with
  | nil => simp [not_reads_nil]
  | cons access first ih =>
      simp only [List.cons_append, reads_cons, ih]
      constructor
      · rintro (h | ⟨_, rfl, h | ⟨earlier', rfl, h⟩⟩)
        · exact Or.inl (Or.inl h)
        · exact Or.inl (Or.inr ⟨_, rfl, h⟩)
        · exact Or.inr ⟨earlier', rfl, h⟩
      · rintro ((h | ⟨earlier', rfl, h⟩) | ⟨earlier', rfl, h⟩)
        · exact Or.inl h
        · exact Or.inr ⟨earlier', rfl, Or.inl h⟩
        · exact Or.inr ⟨first ++ earlier', rfl, Or.inr ⟨earlier', rfl, h⟩⟩

theorem not_reads_binds {vars : List String} : ¬Reads (vars.map .binds) earlier var := by
  induction vars generalizing earlier with
  | nil => exact not_reads_nil
  | cons name vars ih => simp [reads_cons, ih]

theorem Reads.initial (h : Reads accesses earlier var) : earlier <+: accesses := by
  obtain ⟨vars, later, rfl, -⟩ := h
  exact List.prefix_append _ _

theorem inScope_nil : InScope known [] :=
  fun _ _ h => (not_reads_nil h).elim

theorem inScope_reads {vars : List String} :
    InScope known [.reads vars] ↔ ∀ var ∈ vars, var ∈ known := by
  constructor
  · intro h var hvar
    simpa using h (reads_singleton.mpr ⟨rfl, hvar⟩)
  · intro h earlier var hread
    exact List.mem_append_left _ (h var (reads_singleton.mp hread).2)

theorem inScope_binds (var : String) : InScope known [.binds var] := by
  simp [InScope, reads_cons, not_reads_nil]

theorem inScope_append :
    InScope known (first ++ second) ↔
      InScope known first ∧ InScope (known ++ bound first) second := by
  constructor
  · intro h
    constructor
    · intro earlier var hread
      exact h (reads_append.mpr (Or.inl hread))
    · intro earlier var hread
      simpa using h (reads_append.mpr (Or.inr ⟨earlier, rfl, hread⟩))
  · rintro ⟨hfirst, hsecond⟩ earlier var hread
    rcases reads_append.mp hread with hread | ⟨earlier, rfl, hread'⟩
    · exact hfirst hread
    · simpa using hsecond hread'

theorem InScope.initial (h : InScope known accesses) (hinitial : earlier <+: accesses) :
    InScope known earlier := by
  obtain ⟨later, rfl⟩ := hinitial
  exact (inScope_append.mp h).1

-- Of two variables that are read, one of which is not found, the other is read before it or
-- at the same time, if all has been found until then.
theorem Reads.initial_of_inScope {other : String} {upto : List Access}
    (hread : Reads accesses earlier var) (hvar : var ∉ known ++ bound earlier)
    (hother : Reads accesses upto other) (hscope : InScope known upto) : upto <+: earlier := by
  obtain ⟨vars, later, rfl, hmem⟩ := hread
  rcases List.prefix_or_prefix_of_prefix hother.initial (List.prefix_append _ _) with
    h | ⟨rest, rfl⟩
  · exact h
  · obtain ⟨others, last, heq, -⟩ := hother
    rw [List.append_assoc, List.append_cancel_left_eq] at heq
    cases rest with
    | nil => simp
    | cons access rest =>
        obtain ⟨rfl, -⟩ := List.cons.inj heq
        exact (hvar (hscope ⟨vars, rest, rfl, hmem⟩)).elim

theorem lookups_append (known : List String) (first second : List Access) :
    lookups known (first ++ second) =
      lookups known first ++ lookups (known ++ bound first) second := by
  induction first generalizing known with
  | nil => simp [lookups]
  | cons access first ih =>
      cases access with
      | reads vars => simp [lookups, ih]
      | binds var => simp [lookups, ih]

-- Only whether the variables are found that are read matters.
theorem lookups_congr
    (h : ∀ ⦃earlier var⦄, Reads accesses earlier var →
      (var ∈ known ++ bound earlier ↔ var ∈ known' ++ bound earlier)) :
    lookups known accesses = lookups known' accesses := by
  induction accesses generalizing known known' with
  | nil => rfl
  | cons access rest ih =>
      cases access with
      | reads vars =>
          have hvars : ∀ var ∈ vars, (var ∈ known ↔ var ∈ known') := fun var hvar => by
            simpa using h (reads_cons.mpr (Or.inl ⟨rfl, vars, rfl, hvar⟩))
          have hrest : lookups known rest = lookups known' rest := ih fun earlier var hread => by
            simpa using h (reads_cons.mpr (Or.inr ⟨earlier, rfl, hread⟩))
          have hfound : vars.map (fun var => (var, decide (var ∈ known))) =
              vars.map (fun var => (var, decide (var ∈ known'))) :=
            List.map_congr_left fun var hvar => by rw [decide_eq_decide.mpr (hvars var hvar)]
          simp only [lookups, hfound, hrest]
      | binds var =>
          exact ih fun earlier var hread => by
            simpa using h (reads_cons.mpr (Or.inr ⟨earlier, rfl, hread⟩))

-- What is in scope without the first accesses does not rely on them.
theorem InScope.apart (h : InScope known accesses) : Apart known first accesses :=
  fun _ _ hread _ => h hread

theorem Apart.lookups_eq (h : Apart known first accesses) :
    lookups (known ++ bound first) accesses = lookups known accesses := by
  refine lookups_congr fun earlier var hread => ?_
  have hapart := h hread
  simp only [List.mem_append] at hapart ⊢
  tauto

-- Everything is in scope if all that is read is found.
theorem inScope_iff_lookups :
    InScope known accesses ↔ ∀ found ∈ lookups known accesses, found.2 = true := by
  induction accesses generalizing known with
  | nil => simp [lookups, inScope_nil]
  | cons access rest ih =>
      rw [← List.singleton_append, inScope_append, lookups_append, List.forall_mem_append]
      cases access with
      | reads vars => simp [inScope_reads, lookups, ih]
      | binds var => simp [inScope_binds, lookups, ih]

-- Accesses that find the same, if not in the same order, and that bind the same variables.
structure Match (known : List String) (accesses accesses' : List Access) : Prop where
  found : (lookups known accesses).Perm (lookups known accesses')
  bound : ∀ var, var ∈ bound accesses ↔ var ∈ bound accesses'

theorem Match.refl (known : List String) (accesses : List Access) :
    Match known accesses accesses :=
  ⟨.refl _, fun _ => .rfl⟩

theorem Match.append {second' first' : List Access} (h : Match known first first')
    (h' : Match (known ++ Access.bound first) second second') :
    Match known (first ++ second) (first' ++ second') where
  found := by
    have hsame : lookups (known ++ Access.bound first) second' =
        lookups (known ++ Access.bound first') second' :=
      lookups_congr fun _ _ _ => by simp only [List.mem_append, h.bound]
    rw [lookups_append, lookups_append, ← hsame]
    exact h.found.append h'.found
  bound var := by simp only [bound_append, List.mem_append, h.bound, h'.bound]

-- What is read in one of two parts is bound in that part, if at all, so that either may come
-- first.
theorem Match.exchange (h : Apart known first second) (h' : Apart known second first) :
    Match known (first ++ second) (second ++ first) where
  found := by
    rw [lookups_append, lookups_append, h.lookups_eq, h'.lookups_eq]
    exact List.perm_append_comm
  bound var := by simp only [bound_append, List.mem_append, or_comm]

end Access

open Access

mutual

-- What is accessed by storing a value in an expression.
def Expr.storing : Expr → List Access
  | .var name => [.binds name]
  | .tuple parts => storingAll parts
  | other => [.reads other.vars]
  termination_by structural lhs => lhs

def Expr.storingAll : List Expr → List Access
  | [] => []
  | part :: parts => Expr.storing part ++ Expr.storingAll parts
  termination_by structural parts => parts

end

namespace Merge

def accesses (merge : Merge Expr) : List Access :=
  [.reads merge.left.vars, .reads merge.right.vars, .binds merge.var]

-- What is accessed on the way into a loop, and at the end of each pass.
def entering (merge : Merge Expr) : List Access :=
  [.reads merge.left.vars, .binds merge.var]

def closing (merge : Merge Expr) : Access :=
  .reads merge.right.vars

def swap {ε : Type} (merge : Merge ε) : Merge ε where
  var := merge.var
  left := merge.right
  right := merge.left

end Merge

namespace Stmt

mutual

-- What a statement accesses, in the order in which it is typed. The blocks of a branch come
-- one after the other, and what has been bound in the first is still bound in the second.
def accesses : Stmt Expr → List Access
  | .assign lhs rhs => .reads rhs.vars :: lhs.storing
  | .branch cond onTrue onFalse merges =>
    .reads cond.vars :: ((accessesBlock onTrue ++ accessesBlock onFalse) ++
      merges.flatMap Merge.accesses)
  | .loop cond body merges =>
    merges.flatMap Merge.entering ++ (.reads cond.vars :: (accessesBlock body ++
      merges.map Merge.closing))
  | .ret value => [.reads value.vars]
  termination_by structural s => s

def accessesBlock : List (Stmt Expr) → List Access
  | [] => []
  | first :: rest => accesses first ++ accessesBlock rest
  termination_by structural body => body

end

end Stmt

open Stmt (accessesBlock)

-- A place of a body that a statement can stand at, however deep.
inductive Place where
  | here (behind : List (Stmt Expr))
  | next (first : Stmt Expr) (place : Place)
  | inTrue (cond : Expr) (place : Place) (onFalse : List (Stmt Expr)) (merges : List (Merge Expr))
    (behind : List (Stmt Expr))
  | inFalse (cond : Expr) (onTrue : List (Stmt Expr)) (place : Place) (merges : List (Merge Expr))
    (behind : List (Stmt Expr))
  | inLoop (cond : Expr) (place : Place) (merges : List (Merge Expr)) (behind : List (Stmt Expr))

namespace Place

-- The body with a statement at that place.
def fill (s : Stmt Expr) : Place → List (Stmt Expr)
  | .here behind => s :: behind
  | .next first place => first :: place.fill s
  | .inTrue cond place onFalse merges behind =>
    .branch cond (place.fill s) onFalse merges :: behind
  | .inFalse cond onTrue place merges behind =>
    .branch cond onTrue (place.fill s) merges :: behind
  | .inLoop cond place merges behind => .loop cond (place.fill s) merges :: behind

-- What is accessed by then.
def before : Place → List Access
  | .here _ => []
  | .next first place => first.accesses ++ place.before
  | .inTrue cond place _ _ _ => .reads cond.vars :: place.before
  | .inFalse cond onTrue place _ _ => .reads cond.vars :: (accessesBlock onTrue ++ place.before)
  | .inLoop cond place merges _ =>
    merges.flatMap Merge.entering ++ (.reads cond.vars :: place.before)

-- What is accessed from then on.
def behind : Place → List Access
  | .here behind => accessesBlock behind
  | .next _ place => place.behind
  | .inTrue _ place onFalse merges behind =>
    place.behind ++ (accessesBlock onFalse ++ (merges.flatMap Merge.accesses ++
      accessesBlock behind))
  | .inFalse _ _ place merges behind =>
    place.behind ++ (merges.flatMap Merge.accesses ++ accessesBlock behind)
  | .inLoop _ place merges behind =>
    place.behind ++ (merges.map Merge.closing ++ accessesBlock behind)

theorem accesses_fill (s : Stmt Expr) (place : Place) :
    accessesBlock (place.fill s) = place.before ++ (s.accesses ++ place.behind) := by
  induction place with
  | here behind => simp [fill, before, Place.behind, accessesBlock]
  | next first place ih => simp [fill, before, Place.behind, accessesBlock, ih]
  | inTrue cond place onFalse merges rest ih
  | inFalse cond onTrue place merges rest ih
  | inLoop cond place merges rest ih =>
      simp [fill, before, Place.behind, accessesBlock, Stmt.accesses, ih]

end Place

namespace Access

theorem Match.swap (known : List String) (merges : List (Merge Expr)) :
    Match known (merges.flatMap Merge.accesses)
      ((merges.map Merge.swap).flatMap Merge.accesses) := by
  induction merges generalizing known with
  | nil => exact .refl known []
  | cons merge merges ih =>
      refine .append ⟨?_, fun _ => .rfl⟩ (ih _)
      simp only [Merge.accesses, Merge.swap, lookups, List.append_nil]
      exact List.perm_append_comm

-- The blocks of a branch that do not rely on each other may be exchanged.
theorem Match.branch {known : List String} {place : Place} {cond : Expr}
    {onTrue onFalse : List (Stmt Expr)} (merges : List (Merge Expr))
    (h : Apart (known ++ Access.bound place.before) (accessesBlock onTrue) (accessesBlock onFalse))
    (h' : Apart (known ++ Access.bound place.before) (accessesBlock onFalse)
      (accessesBlock onTrue)) :
    Match known (accessesBlock (place.fill (.branch cond onTrue onFalse merges)))
      (accessesBlock (place.fill (.branch cond onFalse onTrue (merges.map Merge.swap)))) := by
  simp only [Place.accesses_fill]
  refine .append (.refl _ _) (.append ?_ (.refl _ _))
  have hcond : Match (known ++ Access.bound place.before) [.reads cond.vars]
      [.reads cond.vars] := .refl _ _
  have hblocks : Match (known ++ Access.bound place.before ++ Access.bound [.reads cond.vars])
      (accessesBlock onTrue ++ accessesBlock onFalse)
      (accessesBlock onFalse ++ accessesBlock onTrue) := by
    simpa using Match.exchange h h'
  exact hcond.append (hblocks.append (.swap _ merges))

end Access

end RankPoly
