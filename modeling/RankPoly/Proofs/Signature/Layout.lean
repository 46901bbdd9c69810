import RankPoly.Proofs.Signature.Derivation
import RankPoly.Signature.Parser

namespace RankPoly.Signature

-- What is said of a text that is a signature, but not for a type. What is said of any other text
-- is only where it stops being one.
def Error.complaint? : Error → Option String
  | .unexpected _ => none
  | .rankOutOfRange _ => some "array rank out of range"
  | .rankZero _ => some "array rank must be at least 1"
  | .duplicateField name _ => some ("duplicate field `" ++ name ++ "`")

theorem Error.message_of_complaint? {error : Error} {text : String}
    (h : error.complaint? = some text) : error.message = located text error.span := by
  cases error <;> cases h <;> rfl

-- A result without the places that an error points to.
def placeless {α : Type} (result : Except Error α) : Except (Option String) α :=
  result.mapError Error.complaint?

theorem placeless_bind {α β : Type} (result : Except Error α) (k : α → Except Error β) :
    placeless (result >>= k) = placeless result >>= fun a => placeless (k a) := by
  cases result <;> rfl

theorem placeless_map {α β : Type} (f : α → β) (result : Except Error α) :
    placeless (result.map f) = (placeless result).map f := by
  cases result <;> rfl

namespace Tree

-- Trees for the same type, or for none with the same complaint.
def Same (tree tree' : Tree) : Prop :=
  placeless tree.toTy = placeless tree'.toTy

def SameMember (member member' : String × List Tree) : Prop :=
  member.1 = member'.1 ∧ List.Forall₂ Same member.2 member'.2

def SameField (field field' : Span × String × Tree) : Prop :=
  field.2.1 = field'.2.1 ∧ Same field.2.2 field'.2.2

section Same

variable {trees trees' : List Tree} {members members' : List (String × List Tree)}
  {fields fields' : List (Span × String × Tree)}

theorem placeless_listToTys (h : List.Forall₂ Same trees trees') :
    placeless (listToTys trees) = placeless (listToTys trees') := by
  induction h with
  | nil => rfl
  | cons hfirst _ ih =>
      have hfirst : placeless _ = placeless _ := hfirst
      simp only [listToTys, placeless_bind, hfirst, ih]

theorem placeless_membersToClosures (h : List.Forall₂ SameMember members members') :
    placeless (membersToClosures members) = placeless (membersToClosures members') := by
  induction h with
  | nil => rfl
  | @cons member member' _ _ hfirst _ ih =>
      obtain ⟨func, captured⟩ := member
      obtain ⟨_, captured'⟩ := member'
      obtain ⟨rfl, hcaptured⟩ := hfirst
      simp only [membersToClosures, placeless_bind, placeless_listToTys hcaptured, ih]

theorem placeless_addFields (h : List.Forall₂ SameField fields fields') (known : NameMap Ty) :
    placeless (addFields known fields) = placeless (addFields known fields') := by
  induction h generalizing known with
  | nil => rfl
  | @cons field field' _ _ hfirst _ ih =>
      obtain ⟨span, name, tree⟩ := field
      obtain ⟨span', _, tree'⟩ := field'
      obtain ⟨rfl, htree⟩ := hfirst
      have htree : placeless _ = placeless _ := htree
      simp only [addFields, placeless_bind, htree]
      congr 1
      funext ty
      split
      · rfl
      · exact ih _

end Same

end Tree

section Spelled

variable {α : Type} {P : Part α} {Q : α → List Lexeme → Prop} {S : α → α → Prop} {as : List α}
  {parts : List (List Lexeme)} {more ls : List Lexeme} {start : Cursor}

theorem exists_mark {c : Char} (h : lexemes start.rest = .mark c :: ls) :
    ∃ stop, Token [c] start stop ∧ lexemes stop.rest = ls := by
  obtain ⟨stop, htoken, -, hrest⟩ := exists_token h
  exact ⟨stop, htoken, hrest⟩

theorem exists_word {name : String} (h : lexemes start.rest = .word name :: ls) :
    ∃ stop, Token name.toList start stop ∧ isIdentifier name = true ∧ lexemes stop.rest = ls := by
  obtain ⟨stop, htoken, hfits, hrest⟩ := exists_token h
  exact ⟨stop, htoken, hfits.1, hrest⟩

-- Wherever the lexemes that the item is derived for are those of a text, the same item stands
-- in the text, up to its places.
def Spelled (P : Part α) (Q : α → List Lexeme → Prop) (S : α → α → Prop) (a : α) : Prop :=
  ∀ ⦃ls⦄, Q a ls → ∀ ⦃start more⦄, lexemes start.rest = ls ++ more →
    ∃ a' stop, P a' start stop ∧ S a a' ∧ lexemes stop.rest = more

theorem exists_chain (h : List.Forall₂ Q as parts) (has : ∀ a ∈ as, Spelled P Q S a)
    (hlexemes : lexemes start.rest = parts.flatMap (.mark ',' :: ·) ++ more) :
    ∃ as' stop, Chain P as' start stop ∧ List.Forall₂ S as as' ∧ lexemes stop.rest = more := by
  induction h generalizing start with
  | nil => exact ⟨[], start, .nil, .nil, hlexemes⟩
  | @cons a ls _ _ ha _ ih =>
      obtain ⟨hfirst, has⟩ := List.forall_mem_cons.mp has
      rw [List.flatMap_cons, List.append_assoc, List.cons_append] at hlexemes
      obtain ⟨next, hcomma, hnext⟩ := exists_mark hlexemes
      obtain ⟨a', mid, ha', hsame, hmid⟩ := hfirst ha hnext
      obtain ⟨as', stop, has', hrest, hstop⟩ := ih has hmid
      exact ⟨a' :: as', stop, .cons hcomma ha' has', .cons hsame hrest, hstop⟩

theorem exists_separated (h : List.Forall₂ Q as parts) (hne : as ≠ [])
    (has : ∀ a ∈ as, Spelled P Q S a) (hlexemes : lexemes start.rest = commas parts ++ more) :
    ∃ as' stop, Separated P as' start stop ∧ List.Forall₂ S as as' ∧ lexemes stop.rest = more := by
  cases h with
  | nil => exact absurd rfl hne
  | cons ha hrest =>
      obtain ⟨hfirst, has⟩ := List.forall_mem_cons.mp has
      rw [commas, List.append_assoc] at hlexemes
      obtain ⟨a', mid, ha', hsame, hmid⟩ := hfirst ha hlexemes
      obtain ⟨as', stop, has', hothers, hstop⟩ := exists_chain hrest has hmid
      exact ⟨a' :: as', stop, .mk ha' has', .cons hsame hothers, hstop⟩

theorem exists_items (h : List.Forall₂ Q as parts) (has : ∀ a ∈ as, Spelled P Q S a)
    (hlexemes : lexemes start.rest = commas parts ++ more) :
    ∃ as' stop, Items P as' start stop ∧ List.Forall₂ S as as' ∧ lexemes stop.rest = more := by
  by_cases hne : as = []
  · subst hne
    cases h
    exact ⟨[], start, .none, .nil, hlexemes⟩
  · obtain ⟨as', stop, has', hsame, hstop⟩ := exists_separated h hne has hlexemes
    exact ⟨as', stop, .some has', hsame, hstop⟩

theorem exists_endedItems {last : List Lexeme} (h : List.Forall₂ Q as parts)
    (has : ∀ a ∈ as, Spelled P Q S a) (hlast : Trailing as last)
    (hlexemes : lexemes start.rest = commas parts ++ (last ++ more)) :
    ∃ as' stop, EndedItems P as' start stop ∧ List.Forall₂ S as as' ∧
      lexemes stop.rest = more := by
  cases hlast with
  | none =>
      obtain ⟨as', stop, has', hsame, hstop⟩ := exists_items h has hlexemes
      cases has' with
      | none => exact ⟨[], _, .none, hsame, hstop⟩
      | some has' => exact ⟨as', stop, .some has', hsame, hstop⟩
  | comma hne =>
      obtain ⟨as', mid, has', hsame, hmid⟩ := exists_separated h hne has hlexemes
      obtain ⟨stop, hcomma, hstop⟩ := exists_mark hmid
      exact ⟨as', stop, .ended has' hcomma, hsame, hstop⟩

end Spelled

section Forms

theorem spelled_array {elem : Scalar} {digits : List Char} {rankSpan span : Span} :
    Spelled Spells Derives Tree.Same (.array elem digits rankSpan span) := by
  intro ls h start more hlexemes
  cases h with
  | array =>
      obtain ⟨_, harray, -, hlexemes⟩ := exists_word hlexemes
      obtain ⟨_, hopen, hlexemes⟩ := exists_mark hlexemes
      obtain ⟨_, helem, -, hlexemes⟩ := exists_word hlexemes
      obtain ⟨_, hcomma, hlexemes⟩ := exists_mark hlexemes
      obtain ⟨_, hrank, ⟨⟨hne, hdigits⟩, -⟩, hlexemes⟩ := exists_token hlexemes
      obtain ⟨stop, hclose, hlexemes⟩ := exists_mark hlexemes
      refine ⟨_, stop, .array harray hopen helem hcomma hne hdigits hrank hclose, ?_, hlexemes⟩
      unfold Tree.Same Tree.toTy
      dsimp only
      split
      · rfl
      · split <;> rfl

theorem spelled_slice {first second third : Tree}
    (hfirst : Spelled Spells Derives Tree.Same first)
    (hsecond : Spelled Spells Derives Tree.Same second)
    (hthird : Spelled Spells Derives Tree.Same third) :
    Spelled Spells Derives Tree.Same (.slice first second third) := by
  intro ls h start more hlexemes
  cases h with
  | slice hderives hderives' hderives'' =>
      simp only [List.cons_append, List.append_assoc, List.nil_append] at hlexemes
      obtain ⟨_, hslice, -, hlexemes⟩ := exists_word hlexemes
      obtain ⟨_, hopen, hlexemes⟩ := exists_mark hlexemes
      obtain ⟨first', _, hfirst', hsame, hlexemes⟩ := hfirst hderives hlexemes
      obtain ⟨_, hcomma, hlexemes⟩ := exists_mark hlexemes
      obtain ⟨second', _, hsecond', hsame', hlexemes⟩ := hsecond hderives' hlexemes
      obtain ⟨_, hcomma', hlexemes⟩ := exists_mark hlexemes
      obtain ⟨third', _, hthird', hsame'', hlexemes⟩ := hthird hderives'' hlexemes
      obtain ⟨stop, hclose, hlexemes⟩ := exists_mark hlexemes
      refine ⟨.slice first' second' third', stop,
        .slice hslice hopen hfirst' hcomma hsecond' hcomma' hthird' hclose, ?_, hlexemes⟩
      unfold Tree.Same at *
      simp only [Tree.toTy, placeless_bind, hsame, hsame', hsame'']

theorem spelled_closure {func : String} {captured : List Tree}
    (hcaptured : ∀ tree ∈ captured, Spelled Spells Derives Tree.Same tree) :
    Spelled SpellsClosure DerivesClosure Tree.SameMember (func, captured) := by
  intro ls h start more hlexemes
  cases h with
  | mk hparts =>
      simp only [List.cons_append, List.append_assoc] at hlexemes
      obtain ⟨_, hclosure, -, hlexemes⟩ := exists_word hlexemes
      obtain ⟨_, hangle, hlexemes⟩ := exists_mark hlexemes
      obtain ⟨_, hfunc, hname, hlexemes⟩ := exists_word hlexemes
      obtain ⟨_, hend, hlexemes⟩ := exists_mark hlexemes
      obtain ⟨_, hopen, hlexemes⟩ := exists_mark hlexemes
      obtain ⟨captured', _, hitems, hsame, hlexemes⟩ := exists_items hparts hcaptured hlexemes
      obtain ⟨stop, hclose, hlexemes⟩ := exists_mark hlexemes
      exact ⟨(func, captured'), stop, .mk hclosure hangle hname hfunc hend hopen hitems hclose,
        ⟨rfl, hsame⟩, hlexemes⟩

theorem spelled_closureSet {members : List (String × List Tree)}
    (hmembers : ∀ member ∈ members, Spelled SpellsClosure DerivesClosure Tree.SameMember member) :
    Spelled Spells Derives Tree.Same (.closureSet members) := by
  intro ls h start more hlexemes
  cases h with
  | closureSet hne hparts =>
      simp only [List.cons_append, List.append_assoc] at hlexemes
      obtain ⟨_, hset, -, hlexemes⟩ := exists_word hlexemes
      obtain ⟨_, hopen, hlexemes⟩ := exists_mark hlexemes
      obtain ⟨members', _, hmembers', hsame, hlexemes⟩ :=
        exists_separated hparts hne hmembers hlexemes
      obtain ⟨stop, hclose, hlexemes⟩ := exists_mark hlexemes
      refine ⟨.closureSet members', stop, .closureSet hset hopen hmembers' hclose, ?_, hlexemes⟩
      unfold Tree.Same
      simp only [Tree.toTy, placeless_bind, Tree.placeless_membersToClosures hsame]

theorem spelled_tuple {elems : List Tree}
    (helems : ∀ tree ∈ elems, Spelled Spells Derives Tree.Same tree) :
    Spelled Spells Derives Tree.Same (.tuple elems) := by
  intro ls h start more hlexemes
  cases h with
  | tuple hparts hlast =>
      simp only [List.cons_append, List.append_assoc] at hlexemes
      obtain ⟨_, hopen, hlexemes⟩ := exists_mark hlexemes
      obtain ⟨elems', _, helems', hsame, hlexemes⟩ :=
        exists_endedItems hparts helems hlast hlexemes
      obtain ⟨stop, hclose, hlexemes⟩ := exists_mark hlexemes
      refine ⟨.tuple elems', stop, .tuple hopen helems' hclose, ?_, hlexemes⟩
      unfold Tree.Same
      simp only [Tree.toTy, placeless_map, Tree.placeless_listToTys hsame]

theorem spelled_field {span : Span} {name : String} {tree : Tree}
    (htree : Spelled Spells Derives Tree.Same tree) :
    Spelled SpellsField DerivesField Tree.SameField (span, name, tree) := by
  intro ls h start more hlexemes
  cases h with
  | mk hderives =>
      simp only [List.cons_append] at hlexemes
      obtain ⟨_, hfield, hname, hlexemes⟩ := exists_word hlexemes
      obtain ⟨_, hcolon, hlexemes⟩ := exists_mark hlexemes
      obtain ⟨tree', stop, hspells, hsame, hlexemes⟩ := htree hderives hlexemes
      exact ⟨(_, name, tree'), stop, .mk hname hfield hcolon hspells, ⟨rfl, hsame⟩, hlexemes⟩

theorem spelled_struct {fields : List (Span × String × Tree)}
    (hfields : ∀ field ∈ fields, Spelled SpellsField DerivesField Tree.SameField field) :
    Spelled Spells Derives Tree.Same (.struct fields) := by
  intro ls h start more hlexemes
  cases h with
  | struct hparts hlast =>
      simp only [List.cons_append, List.append_assoc] at hlexemes
      obtain ⟨_, hopen, hlexemes⟩ := exists_mark hlexemes
      obtain ⟨fields', _, hfields', hsame, hlexemes⟩ :=
        exists_endedItems hparts hfields hlast hlexemes
      obtain ⟨stop, hclose, hlexemes⟩ := exists_mark hlexemes
      refine ⟨.struct fields', stop, .struct hopen hfields' hclose, ?_, hlexemes⟩
      unfold Tree.Same
      simp only [Tree.toTy, placeless_map, Tree.placeless_addFields hsame]

end Forms

mutual

theorem spelled_tree : ∀ tree : Tree, Spelled Spells Derives Tree.Same tree
  | .unknown => by
      intro ls h start more hlexemes
      cases h with
      | unknown =>
          obtain ⟨stop, htoken, hstop⟩ := exists_mark hlexemes
          exact ⟨_, stop, .unknown htoken, rfl, hstop⟩
  | .none => by
      intro ls h start more hlexemes
      cases h with
      | none =>
          obtain ⟨stop, htoken, -, hstop⟩ := exists_word hlexemes
          exact ⟨_, stop, .none htoken, rfl, hstop⟩
  | .scalar kind => by
      intro ls h start more hlexemes
      cases h with
      | scalar =>
          obtain ⟨stop, htoken, -, hstop⟩ := exists_word hlexemes
          exact ⟨_, stop, .scalar htoken, rfl, hstop⟩
  | .array .. => spelled_array
  | .slice first second third =>
      spelled_slice (spelled_tree first) (spelled_tree second) (spelled_tree third)
  | .closure func captured => by
      intro ls h start more hlexemes
      cases h with
      | closure hclosure =>
          obtain ⟨⟨_, captured'⟩, stop, hspells, ⟨rfl, hsame⟩, hstop⟩ :=
            spelled_closure (spelled_list captured) hclosure hlexemes
          refine ⟨.closure func captured', stop, .closure hspells, ?_, hstop⟩
          unfold Tree.Same
          simp only [Tree.toTy, placeless_bind, Tree.placeless_listToTys hsame]
  | .closureSet members => spelled_closureSet (spelled_members members)
  | .tuple elems => spelled_tuple (spelled_list elems)
  | .struct fields => spelled_struct (spelled_fields fields)
  termination_by structural tree => tree

theorem spelled_list : ∀ trees : List Tree,
    ∀ tree ∈ trees, Spelled Spells Derives Tree.Same tree
  | [] => nofun
  | first :: rest => List.forall_mem_cons.mpr ⟨spelled_tree first, spelled_list rest⟩
  termination_by structural trees => trees

theorem spelled_members : ∀ members : List (String × List Tree),
    ∀ member ∈ members, Spelled SpellsClosure DerivesClosure Tree.SameMember member
  | [] => nofun
  | (_, captured) :: rest =>
      List.forall_mem_cons.mpr ⟨spelled_closure (spelled_list captured), spelled_members rest⟩
  termination_by structural members => members

theorem spelled_fields : ∀ fields : List (Span × String × Tree),
    ∀ field ∈ fields, Spelled SpellsField DerivesField Tree.SameField field
  | [] => nofun
  | (_, _, tree) :: rest =>
      List.forall_mem_cons.mpr ⟨spelled_field (spelled_tree tree), spelled_fields rest⟩
  termination_by structural fields => fields

end

end RankPoly.Signature
