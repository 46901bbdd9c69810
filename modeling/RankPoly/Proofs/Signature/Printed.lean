import RankPoly.Proofs.NameMap
import RankPoly.Proofs.Signature.Reading
import RankPoly.Proofs.Ty.Parts
import RankPoly.Signature.Parser
import RankPoly.Ty.Printer

namespace RankPoly

-- What is asked of a type itself, next to its parts, for it to have a spelling. Fields and members
-- stand in the order that maps and sets keep them in.
def Ty.Printable : Ty → Prop
  | .array _ rank => 0 < rank ∧ rank < Signature.rankLimit
  | .struct fields =>
    NameMap.Sorted fields ∧ ∀ field ∈ fields, Signature.isIdentifier field.1 = true
  | .closure target => Signature.isIdentifier target.func = true
  | .closureSet members =>
    members ≠ [] ∧ ClosureSet.Sorted members ∧
      ∀ member ∈ members, Signature.isIdentifier member.func = true
  | _ => True

instance : DecidablePred Ty.Printable
  | .array _ _ => inferInstanceAs (Decidable (_ ∧ _))
  | .struct fields => inferInstanceAs (Decidable (NameMap.Sorted fields ∧ _))
  | .closure _ => inferInstanceAs (Decidable (_ = true))
  | .closureSet _ => inferInstanceAs (Decidable (_ ∧ _ ∧ _))
  | .unknown | .scalar _ | .tuple _ | .slice .. | .none => inferInstanceAs (Decidable True)

namespace Signature

open Ty (charsList charsFields charsClosure charsClosures)
open Text (commaChars)

def Blank (text : List Char) : Prop :=
  ∀ c ∈ text, isBlank c = true

@[simp] theorem blank_nil : Blank [] :=
  nofun

@[simp] theorem blank_space : Blank [' '] := by
  simp [Blank, isBlank]

section Tokens

variable {before word rest : List Char} {start : Cursor} {c : Char}

theorem token_of_rest (hbefore : Blank before) (hword : word.head? = some c)
    (hc : isBlank c = false) (hstart : start.rest = before ++ (word ++ rest)) :
    ∃ stop, Token word start stop ∧ stop.rest = rest := by
  have hskip : start.skip.rest = word ++ rest := by
    rw [Cursor.rest_skip, hstart, List.dropWhile_append_of_pos hbefore]
    refine dropWhile_eq_self ?_
    simpa [Stops, hword] using hc
  exact ⟨_, ⟨⟨rest, hskip.symm⟩, rfl⟩, by simp [Cursor.advance, hskip]⟩

theorem mark_of_rest (hc : isBlank c = false) (hstart : start.rest = c :: rest) :
    ∃ stop, Token [c] start stop ∧ stop.rest = rest :=
  token_of_rest blank_nil rfl hc hstart

theorem word_of_rest (hbefore : Blank before) (hne : word ≠ [])
    (hword : ∀ c ∈ word, isName c = true) (hstart : start.rest = before ++ (word ++ rest)) :
    ∃ stop, Token word start stop ∧ stop.rest = rest := by
  obtain ⟨c, others, rfl⟩ := List.exists_cons_of_ne_nil hne
  refine token_of_rest hbefore rfl (Bool.eq_false_iff.mpr fun hblank => ?_) hstart
  simp [isName_of_isBlank hblank] at hword

end Tokens

-- A text that can stand behind blanks for something with a property, whatever follows.
def Shows {α : Type} (P : Part α) (text : List Char) (q : α → Prop) : Prop :=
  ∀ ⦃before rest start⦄, Blank before → start.rest = before ++ (text ++ rest) →
    ∃ a stop, P a start stop ∧ stop.rest = rest ∧ q a

section Lists

variable {α β : Type} {P : Part α} {q : α → β → Prop} {texts : List (List Char)} {bs : List β}
  {start : Cursor} {before rest : List Char}

theorem commaChars_cons (text : List Char) (texts : List (List Char)) :
    commaChars (text :: texts) = text ++ texts.flatMap (',' :: ' ' :: ·) := by
  induction texts generalizing text with
  | nil => simp [commaChars]
  | cons next texts ih =>
      change text ++ ", ".toList ++ commaChars (next :: texts) = _
      simp [ih]

theorem chain_of_shows (h : List.Forall₂ (fun text b => Shows P text (q · b)) texts bs)
    (hstart : start.rest = texts.flatMap (',' :: ' ' :: ·) ++ rest) :
    ∃ as stop, Chain P as start stop ∧ stop.rest = rest ∧ List.Forall₂ q as bs := by
  induction h generalizing start with
  | nil => exact ⟨[], start, .nil, hstart, .nil⟩
  | cons hfirst _ ih =>
      rw [List.flatMap_cons, List.append_assoc] at hstart
      obtain ⟨next, hcomma, hnext⟩ := mark_of_rest (by decide) hstart
      obtain ⟨a, mid, ha, hmid, hqa⟩ := hfirst blank_space hnext
      obtain ⟨as, stop, has, hstop, hqas⟩ := ih hmid
      exact ⟨a :: as, stop, .cons hcomma ha has, hstop, .cons hqa hqas⟩

theorem separated_of_shows (h : List.Forall₂ (fun text b => Shows P text (q · b)) texts bs)
    (hne : texts ≠ []) : Shows (Separated P) (commaChars texts) (List.Forall₂ q · bs) := by
  intro before rest start hbefore hstart
  cases h with
  | nil => exact (hne rfl).elim
  | cons hfirst hothers =>
      rw [commaChars_cons, List.append_assoc] at hstart
      obtain ⟨a, mid, ha, hmid, hqa⟩ := hfirst hbefore hstart
      obtain ⟨as, stop, has, hstop, hqas⟩ := chain_of_shows hothers hmid
      exact ⟨a :: as, stop, .mk ha has, hstop, .cons hqa hqas⟩

theorem items_of_shows (h : List.Forall₂ (fun text b => Shows P text (q · b)) texts bs)
    (hstart : start.rest = commaChars texts ++ rest) :
    ∃ as stop, Items P as start stop ∧ stop.rest = rest ∧ List.Forall₂ q as bs := by
  cases h with
  | nil => exact ⟨[], start, .none, hstart, .nil⟩
  | cons hfirst hothers =>
      obtain ⟨as, stop, has, hstop, hqas⟩ :=
        separated_of_shows (.cons hfirst hothers) nofun blank_nil hstart
      exact ⟨as, stop, .some has, hstop, hqas⟩

theorem endedItems_of_shows (h : List.Forall₂ (fun text b => Shows P text (q · b)) texts bs)
    (hstart : start.rest = commaChars texts ++ rest) :
    ∃ as stop, EndedItems P as start stop ∧ stop.rest = rest ∧ List.Forall₂ q as bs := by
  obtain ⟨as, stop, has, hstop, hqas⟩ := items_of_shows h hstart
  cases has with
  | none => exact ⟨[], start, .none, hstop, hqas⟩
  | some has => exact ⟨as, stop, .some has, hstop, hqas⟩

end Lists

-- What a tree, or a part of one, is read for.

def Tree.Is (tree : Tree) (ty : Ty) : Prop :=
  tree.toTy = .ok ty

def FieldIs (field : Span × String × Tree) (named : String × Ty) : Prop :=
  field.2.1 = named.1 ∧ field.2.2.Is named.2

def ClosureIs (read : String × List Tree) (closure : Closure) : Prop :=
  read.1 = closure.func ∧ List.Forall₂ Tree.Is read.2 closure.captured

section Denoted

theorem listToTys_eq {trees : List Tree} {tys : List Ty} (h : List.Forall₂ Tree.Is trees tys) :
    Tree.listToTys trees = .ok tys := by
  induction h with
  | nil => rfl
  | cons hfirst _ ih =>
      unfold Tree.listToTys
      rw [hfirst, ih]
      rfl

theorem membersToClosures_eq {members : List (String × List Tree)} {closures : List Closure}
    (h : List.Forall₂ ClosureIs members closures) :
    Tree.membersToClosures members = .ok closures := by
  induction h with
  | nil => rfl
  | @cons member closure _ _ hfirst _ ih =>
      obtain ⟨func, captured⟩ := member
      obtain ⟨func', tys⟩ := closure
      obtain ⟨rfl, hcaptured⟩ := hfirst
      unfold Tree.membersToClosures
      rw [listToTys_eq hcaptured, ih]
      rfl

-- Fields that come in the order of their names are put behind those that are known.
theorem addFields_eq {trees : List (Span × String × Tree)} {fields known : NameMap Ty}
    (h : List.Forall₂ FieldIs trees fields) (hsorted : NameMap.Sorted (known ++ fields)) :
    Tree.addFields known trees = .ok (known ++ fields) := by
  induction h generalizing known with
  | nil => simp [Tree.addFields]
  | @cons tree field trees fields hfirst _ ih =>
      obtain ⟨span, name, tree⟩ := tree
      obtain ⟨name', ty⟩ := field
      obtain ⟨rfl, htree⟩ := hfirst
      have hlast : ∀ key ∈ known.keys, key < name := by
        intro key hmem
        unfold NameMap.Sorted NameMap.keys at hsorted
        rw [List.map_append, List.pairwise_append] at hsorted
        exact hsorted.2.2 key hmem name List.mem_cons_self
      have hnew : known.contains name = false := by
        refine Bool.eq_false_iff.mpr fun hknown => ?_
        have hmem := NameMap.mem_keys_iff.mpr (NameMap.contains_iff.mp hknown)
        exact String.lt_irrefl _ (hlast _ hmem)
      unfold Tree.addFields
      rw [htree]
      change (if known.contains name = true then _ else _) = _
      rw [if_neg (by simp [hnew]), NameMap.insert_eq_append ty hlast]
      have hrest : NameMap.Sorted (known ++ [(name, ty)] ++ fields) := by simpa using hsorted
      simpa using ih hrest

theorem is_array {elem : Scalar} {rank : Nat} {rankSpan span : Span}
    (h : Ty.Printable (.array elem rank)) :
    Tree.Is (.array elem (Nat.toDigits 10 rank) rankSpan span) (.array elem rank) := by
  obtain ⟨hpos, hlimit⟩ := h
  unfold Tree.Is Tree.toTy
  rw [Nat.ofDigitChars_ten_toDigits]
  simp [Nat.not_le.mpr hlimit, Nat.ne_of_gt hpos, Ty.ofRank]

theorem is_slice {tree₁ tree₂ tree₃ : Tree} {first second third : Ty} (hfirst : tree₁.Is first)
    (hsecond : tree₂.Is second) (hthird : tree₃.Is third) :
    Tree.Is (.slice tree₁ tree₂ tree₃) (.slice first second third) := by
  unfold Tree.Is Tree.toTy
  rw [hfirst, hsecond, hthird]
  rfl

theorem is_tuple {trees : List Tree} {elems : List Ty} (h : List.Forall₂ Tree.Is trees elems) :
    Tree.Is (.tuple trees) (.tuple elems) := by
  unfold Tree.Is Tree.toTy
  rw [listToTys_eq h]
  rfl

theorem is_struct {trees : List (Span × String × Tree)} {fields : NameMap Ty}
    (h : List.Forall₂ FieldIs trees fields) (hsorted : fields.Sorted) :
    Tree.Is (.struct trees) (.struct fields) := by
  have hfields : Tree.addFields [] trees = .ok fields := addFields_eq h hsorted
  unfold Tree.Is Tree.toTy
  rw [hfields]
  rfl

theorem is_closure {func : String} {trees : List Tree} {captured : List Ty}
    (h : List.Forall₂ Tree.Is trees captured) :
    Tree.Is (.closure func trees) (.closure ⟨func, captured⟩) := by
  unfold Tree.Is Tree.toTy
  rw [listToTys_eq h]
  rfl

theorem is_closureSet {members : List (String × List Tree)} {closures : List Closure}
    (h : List.Forall₂ ClosureIs members closures) (hsorted : ClosureSet.Sorted closures) :
    Tree.Is (.closureSet members) (.closureSet closures) := by
  unfold Tree.Is Tree.toTy
  rw [membersToClosures_eq h]
  have hunion : ClosureSet.union [] closures = closures :=
    ClosureSet.Sorted.union_of_subset List.Pairwise.nil hsorted (List.nil_subset _)
  change Except.ok (Ty.closureSet (ClosureSet.union [] closures)) = _
  rw [hunion]

end Denoted

section Forms

theorem shows_unknown : Shows Spells (Ty.chars .unknown) (Tree.Is · .unknown) := by
  intro before rest start hbefore hstart
  obtain ⟨stop, htoken, hstop⟩ := token_of_rest (c := '?') hbefore rfl (by decide) hstart
  exact ⟨.unknown, stop, .unknown htoken, hstop, rfl⟩

theorem shows_none : Shows Spells (Ty.chars .none) (Tree.Is · .none) := by
  intro before rest start hbefore hstart
  obtain ⟨stop, htoken, hstop⟩ := token_of_rest (c := 'n') hbefore rfl (by decide) hstart
  exact ⟨.none, stop, .none htoken, hstop, rfl⟩

theorem isName_of_mem_name (kind : Scalar) : ∀ c ∈ kind.name.toList, isName c = true :=
  fun c hc => isName_of_isWord (isWord_of_mem_name kind c hc)

theorem shows_scalar (kind : Scalar) :
    Shows Spells (Ty.chars (.scalar kind)) (Tree.Is · (.scalar kind)) := by
  intro before rest start hbefore hstart
  obtain ⟨stop, htoken, hstop⟩ :=
    word_of_rest hbefore (name_ne_nil kind) (isName_of_mem_name kind) hstart
  exact ⟨.scalar kind, stop, .scalar htoken, hstop, rfl⟩

theorem shows_array {elem : Scalar} {rank : Nat} (h : Ty.Printable (.array elem rank)) :
    Shows Spells (Ty.chars (.array elem rank)) (Tree.Is · (.array elem rank)) := by
  intro before rest start hbefore hstart
  have hchars : (Ty.array elem rank).chars ++ rest =
      "array".toList ++ '<' :: (elem.name.toList ++ ',' :: ' ' ::
        (Nat.toDigits 10 rank ++ '>' :: rest)) := by
    change "array".toList ++ ['<'] ++ elem.name.toList ++ [',', ' '] ++ _ ++ ['>'] ++ rest = _
    simp only [List.append_assoc, List.cons_append, List.nil_append]
  rw [hchars] at hstart
  have hdigits : ∀ c ∈ Nat.toDigits 10 rank, c.isDigit = true :=
    fun c hc => Nat.isDigit_of_mem_toDigits (by omega) (by omega) hc
  obtain ⟨angle, harray, hstart⟩ := token_of_rest (c := 'a') hbefore rfl (by decide) hstart
  obtain ⟨kind, hopen, hstart⟩ := mark_of_rest (by decide) hstart
  obtain ⟨comma, helem, hstart⟩ :=
    word_of_rest blank_nil (name_ne_nil elem) (isName_of_mem_name elem) hstart
  obtain ⟨place, hcomma, hstart⟩ := mark_of_rest (by decide) hstart
  obtain ⟨last, hrank, hstart⟩ := word_of_rest blank_space Nat.toDigits_ne_nil
    (fun c hc => isName_of_isWord (isWord_of_isDigit (hdigits c hc))) hstart
  obtain ⟨stop, hclose, hstop⟩ := mark_of_rest (by decide) hstart
  exact ⟨_, stop, .array harray hopen helem hcomma Nat.toDigits_ne_nil hdigits hrank hclose,
    hstop, is_array h⟩

theorem shows_slice {first second third : Ty} (hfirst : Shows Spells first.chars (Tree.Is · first))
    (hsecond : Shows Spells second.chars (Tree.Is · second))
    (hthird : Shows Spells third.chars (Tree.Is · third)) :
    Shows Spells (Ty.chars (.slice first second third))
      (Tree.Is · (.slice first second third)) := by
  intro before rest start hbefore hstart
  have hchars : (Ty.slice first second third).chars ++ rest =
      "slice".toList ++ '<' :: (first.chars ++ ',' :: ' ' :: (second.chars ++ ',' :: ' ' ::
        (third.chars ++ '>' :: rest))) := by
    change "slice".toList ++ ['<'] ++ first.chars ++ [',', ' '] ++ second.chars ++ [',', ' '] ++
      third.chars ++ ['>'] ++ rest = _
    simp only [List.append_assoc, List.cons_append, List.nil_append]
  rw [hchars] at hstart
  obtain ⟨angle, hslice, hstart⟩ := token_of_rest (c := 's') hbefore rfl (by decide) hstart
  obtain ⟨c₁, hopen, hstart⟩ := mark_of_rest (by decide) hstart
  obtain ⟨tree₁, c₂, htree₁, hstart, his₁⟩ := hfirst blank_nil hstart
  obtain ⟨c₃, hcomma, hstart⟩ := mark_of_rest (by decide) hstart
  obtain ⟨tree₂, c₄, htree₂, hstart, his₂⟩ := hsecond blank_space hstart
  obtain ⟨c₅, hcomma', hstart⟩ := mark_of_rest (by decide) hstart
  obtain ⟨tree₃, last, htree₃, hstart, his₃⟩ := hthird blank_space hstart
  obtain ⟨stop, hclose, hstop⟩ := mark_of_rest (by decide) hstart
  exact ⟨_, stop, .slice hslice hopen htree₁ hcomma htree₂ hcomma' htree₃ hclose, hstop,
    is_slice his₁ his₂ his₃⟩

theorem shows_closure {func : String} {captured : List Ty} (hname : isIdentifier func = true)
    (h : List.Forall₂ (fun text ty => Shows Spells text (Tree.Is · ty)) (charsList captured)
      captured) :
    Shows SpellsClosure (charsClosure ⟨func, captured⟩) (ClosureIs · ⟨func, captured⟩) := by
  intro before rest start hbefore hstart
  have hchars : charsClosure ⟨func, captured⟩ ++ rest =
      "closure".toList ++ '<' :: (func.toList ++ '>' :: '(' ::
        (commaChars (charsList captured) ++ ')' :: rest)) := by
    change "closure".toList ++ ['<'] ++ func.toList ++ ['>', '('] ++ _ ++ [')'] ++ rest = _
    simp only [List.append_assoc, List.cons_append, List.nil_append]
  rw [hchars] at hstart
  obtain ⟨angle, hclosure, hstart⟩ := token_of_rest (c := 'c') hbefore rfl (by decide) hstart
  obtain ⟨name, hopen, hstart⟩ := mark_of_rest (by decide) hstart
  obtain ⟨c₁, hfunc, hstart⟩ :=
    word_of_rest blank_nil (isIdentifier_ne_nil hname) (isIdentifier_iff.mp hname).1 hstart
  obtain ⟨c₂, hend, hstart⟩ := mark_of_rest (by decide) hstart
  obtain ⟨first, hparen, hstart⟩ := mark_of_rest (by decide) hstart
  obtain ⟨trees, last, htrees, hstart, hare⟩ := items_of_shows h hstart
  obtain ⟨stop, hclose, hstop⟩ := mark_of_rest (by decide) hstart
  exact ⟨(func, trees), stop, .mk hclosure hopen hname hfunc hend hparen htrees hclose, hstop,
    rfl, hare⟩

theorem shows_field {name : String} {ty : Ty} (hname : isIdentifier name = true)
    (h : Shows Spells ty.chars (Tree.Is · ty)) :
    Shows SpellsField (name.toList ++ ": ".toList ++ ty.chars) (FieldIs · (name, ty)) := by
  intro before rest start hbefore hstart
  have hchars : name.toList ++ ": ".toList ++ ty.chars ++ rest =
      name.toList ++ ':' :: ' ' :: (ty.chars ++ rest) := by
    simp
  rw [hchars] at hstart
  obtain ⟨colon, htoken, hstart⟩ :=
    word_of_rest hbefore (isIdentifier_ne_nil hname) (isIdentifier_iff.mp hname).1 hstart
  obtain ⟨first, hcolon, hstart⟩ := mark_of_rest (by decide) hstart
  obtain ⟨tree, stop, htree, hstop, his⟩ := h blank_space hstart
  exact ⟨_, stop, .mk hname htoken hcolon htree, hstop, rfl, his⟩

theorem shows_closureSet {members : List Closure} (hprintable : Ty.Printable (.closureSet members))
    (h : List.Forall₂ (fun text member => Shows SpellsClosure text (ClosureIs · member))
      (charsClosures members) members) :
    Shows Spells (Ty.chars (.closureSet members)) (Tree.Is · (.closureSet members)) := by
  intro before rest start hbefore hstart
  have hchars : (Ty.closureSet members).chars ++ rest =
      "one_of".toList ++ '[' :: (commaChars (charsClosures members) ++ ']' :: rest) := by
    change "one_of".toList ++ ['['] ++ _ ++ [']'] ++ rest = _
    simp only [List.append_assoc, List.cons_append, List.nil_append]
  rw [hchars] at hstart
  obtain ⟨hne, hsorted, -⟩ := hprintable
  have htexts : charsClosures members ≠ [] := by
    cases members with
    | nil => exact (hne rfl).elim
    | cons member rest => simp [charsClosures]
  obtain ⟨bracket, hset, hstart⟩ := token_of_rest (c := 'o') hbefore rfl (by decide) hstart
  obtain ⟨first, hopen, hstart⟩ := mark_of_rest (by decide) hstart
  obtain ⟨read, last, hread, hstart, hare⟩ := separated_of_shows h htexts blank_nil hstart
  obtain ⟨stop, hclose, hstop⟩ := mark_of_rest (by decide) hstart
  exact ⟨_, stop, .closureSet hset hopen hread hclose, hstop, is_closureSet hare hsorted⟩

-- A single type is told from a tuple that holds just it by the comma behind it.
theorem shows_single {elem : Ty} (h : Shows Spells elem.chars (Tree.Is · elem)) :
    Shows Spells (Ty.chars (.tuple [elem])) (Tree.Is · (.tuple [elem])) := by
  intro before rest start hbefore hstart
  have hchars : (Ty.tuple [elem]).chars ++ rest = ['('] ++ (elem.chars ++ ',' :: ')' :: rest) := by
    change '(' :: elem.chars ++ [',', ')'] ++ rest = _
    simp
  rw [hchars] at hstart
  obtain ⟨first, hopen, hstart⟩ := token_of_rest (c := '(') hbefore rfl (by decide) hstart
  obtain ⟨tree, mid, htree, hstart, his⟩ := h blank_nil hstart
  obtain ⟨last, hcomma, hstart⟩ := mark_of_rest (by decide) hstart
  obtain ⟨stop, hclose, hstop⟩ := mark_of_rest (by decide) hstart
  exact ⟨_, stop, .tuple hopen (.ended (.mk htree .nil) hcomma) hclose, hstop,
    is_tuple (.cons his .nil)⟩

theorem shows_tuple {elems : List Ty}
    (h : List.Forall₂ (fun text ty => Shows Spells text (Tree.Is · ty)) (charsList elems) elems) :
    Shows Spells (Ty.chars (.tuple elems)) (Tree.Is · (.tuple elems)) := by
  suffices hother : (Ty.tuple elems).chars = '(' :: commaChars (charsList elems) ++ [')'] →
      Shows Spells (Ty.chars (.tuple elems)) (Tree.Is · (.tuple elems)) by
    match elems, h with
    | [], _ => exact hother rfl
    | [_], .cons helem _ => exact shows_single helem
    | _ :: _ :: _, _ => exact hother rfl
  intro hchars before rest start hbefore hstart
  have hstart : start.rest =
      before ++ (['('] ++ (commaChars (charsList elems) ++ ')' :: rest)) := by
    simpa [hchars] using hstart
  obtain ⟨first, hopen, hstart⟩ := token_of_rest (c := '(') hbefore rfl (by decide) hstart
  obtain ⟨trees, last, htrees, hstart, hare⟩ := endedItems_of_shows h hstart
  obtain ⟨stop, hclose, hstop⟩ := mark_of_rest (by decide) hstart
  exact ⟨_, stop, .tuple hopen htrees hclose, hstop, is_tuple hare⟩

theorem shows_struct {fields : NameMap Ty} (hsorted : fields.Sorted)
    (h : List.Forall₂ (fun text field => Shows SpellsField text (FieldIs · field))
      (charsFields fields) fields) :
    Shows Spells (Ty.chars (.struct fields)) (Tree.Is · (.struct fields)) := by
  intro before rest start hbefore hstart
  have hchars : (Ty.struct fields).chars ++ rest =
      ['\x7b'] ++ (commaChars (charsFields fields) ++ '\x7d' :: rest) := by
    change '\x7b' :: commaChars (charsFields fields) ++ ['\x7d'] ++ rest = _
    simp
  rw [hchars] at hstart
  obtain ⟨first, hopen, hstart⟩ := token_of_rest (c := '\x7b') hbefore rfl (by decide) hstart
  obtain ⟨trees, last, htrees, hstart, hare⟩ := endedItems_of_shows h hstart
  obtain ⟨stop, hclose, hstop⟩ := mark_of_rest (by decide) hstart
  exact ⟨_, stop, .struct hopen htrees hclose, hstop, is_struct hare hsorted⟩

end Forms

mutual

-- By induction on the type: what it is printed as spells a tree that is read as the type.
theorem shows_ty : ∀ ty : Ty, ty.AllParts Ty.Printable → Shows Spells ty.chars (Tree.Is · ty)
  | .unknown, _ => shows_unknown
  | .scalar kind, _ => shows_scalar kind
  | .array _ _, h => shows_array h.self
  | .tuple elems, h => shows_tuple (shows_list elems (Ty.allParts_tuple.mp h).2)
  | .struct fields, h => by
      obtain ⟨⟨hsorted, hnames⟩, hparts⟩ := Ty.allParts_struct.mp h
      exact shows_struct hsorted (shows_fields fields hnames hparts)
  | .closure ⟨func, captured⟩, h => by
      obtain ⟨hname, hparts⟩ := Ty.allParts_closure.mp h
      intro before rest start hbefore hstart
      obtain ⟨⟨func', trees⟩, stop, hclosure, hstop, hfunc, hare⟩ :=
        shows_closure hname (shows_list captured hparts) hbefore hstart
      cases hfunc
      exact ⟨_, stop, .closure hclosure, hstop, is_closure hare⟩
  | .closureSet members, h => by
      obtain ⟨hset, hparts⟩ := Ty.allParts_closureSet.mp h
      exact shows_closureSet hset (shows_closures members hset.2.2 hparts)
  | .slice first second third, h => by
      obtain ⟨-, hfirst, hsecond, hthird⟩ := Ty.allParts_slice.mp h
      exact shows_slice (shows_ty first hfirst) (shows_ty second hsecond) (shows_ty third hthird)
  | .none, _ => shows_none
  termination_by structural ty => ty

theorem shows_list : ∀ tys : List Ty, (∀ ty ∈ tys, ty.AllParts Ty.Printable) →
    List.Forall₂ (fun text ty => Shows Spells text (Tree.Is · ty)) (charsList tys) tys
  | [], _ => .nil
  | first :: rest, h => by
      obtain ⟨hfirst, hrest⟩ := List.forall_mem_cons.mp h
      exact .cons (shows_ty first hfirst) (shows_list rest hrest)
  termination_by structural tys => tys

theorem shows_fields : ∀ fields : List (String × Ty),
    (∀ field ∈ fields, isIdentifier field.1 = true) →
    (∀ field ∈ fields, field.2.AllParts Ty.Printable) →
    List.Forall₂ (fun text field => Shows SpellsField text (FieldIs · field)) (charsFields fields)
      fields
  | [], _, _ => .nil
  | (name, first) :: rest, hnames, h => by
      obtain ⟨hname, hnames⟩ := List.forall_mem_cons.mp hnames
      obtain ⟨hfirst, hrest⟩ := List.forall_mem_cons.mp h
      exact .cons (shows_field hname (shows_ty first hfirst)) (shows_fields rest hnames hrest)
  termination_by structural fields => fields

theorem shows_closures : ∀ closures : List Closure,
    (∀ closure ∈ closures, isIdentifier closure.func = true) →
    (∀ closure ∈ closures, ∀ ty ∈ closure.captured, ty.AllParts Ty.Printable) →
    List.Forall₂ (fun text closure => Shows SpellsClosure text (ClosureIs · closure))
      (charsClosures closures) closures
  | [], _, _ => .nil
  | ⟨func, captured⟩ :: rest, hnames, h => by
      obtain ⟨hname, hnames⟩ := List.forall_mem_cons.mp hnames
      obtain ⟨hfirst, hrest⟩ := List.forall_mem_cons.mp h
      have hclosure := shows_closure hname (shows_list captured hfirst)
      exact .cons hclosure (shows_closures rest hnames hrest)
  termination_by structural closures => closures

end

end Signature

end RankPoly
