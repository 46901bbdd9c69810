import Mathlib.Data.List.Forall2
import RankPoly.Proofs.Signature.Lexeme
import RankPoly.Proofs.Signature.Soundness

namespace RankPoly.Signature

-- Parts with commas between them.
def commas : List (List Lexeme) → List Lexeme
  | [] => []
  | first :: rest => first ++ rest.flatMap (.mark ',' :: ·)

-- Behind the parts of a list stands nothing, or a comma if there are any.
inductive Trailing {α : Type} (as : List α) : List Lexeme → Prop where
  | none : Trailing as []
  | comma : as ≠ [] → Trailing as [.mark ',']

mutual

-- The syntax as a grammar over lexemes. Its alternatives stand in no order, and there are no
-- blanks in it. The places that trees hold are left open, as lexemes have none.
inductive Derives : Tree → List Lexeme → Prop where
  | unknown : Derives .unknown [.mark '?']
  | none : Derives .none [.word "none"]
  | scalar {kind : Scalar} : Derives (.scalar kind) [.word kind.name]
  | array {elem : Scalar} {digits : List Char} {rankSpan span : Span} :
      Derives (.array elem digits rankSpan span)
        [.word "array", .mark '<', .word elem.name, .mark ',', .number digits, .mark '>']
  | slice {first second third : Tree} {as bs cs : List Lexeme} : Derives first as →
      Derives second bs → Derives third cs →
      Derives (.slice first second third)
        (.word "slice" :: .mark '<' ::
          (as ++ .mark ',' :: (bs ++ .mark ',' :: (cs ++ [.mark '>']))))
  | closure {func : String} {captured : List Tree} {ls : List Lexeme} :
      DerivesClosure (func, captured) ls → Derives (.closure func captured) ls
  | closureSet {members : List (String × List Tree)} {parts : List (List Lexeme)} :
      members ≠ [] → List.Forall₂ DerivesClosure members parts →
      Derives (.closureSet members) (.word "one_of" :: .mark '[' :: (commas parts ++ [.mark ']']))
  | tuple {elems : List Tree} {parts : List (List Lexeme)} {last : List Lexeme} :
      List.Forall₂ Derives elems parts → Trailing elems last →
      Derives (.tuple elems) (.mark '(' :: (commas parts ++ (last ++ [.mark ')'])))
  | struct {fields : List (Span × String × Tree)} {parts : List (List Lexeme)}
      {last : List Lexeme} : List.Forall₂ DerivesField fields parts → Trailing fields last →
      Derives (.struct fields) (.mark '\x7b' :: (commas parts ++ (last ++ [.mark '\x7d'])))

inductive DerivesClosure : String × List Tree → List Lexeme → Prop where
  | mk {func : String} {captured : List Tree} {parts : List (List Lexeme)} :
      List.Forall₂ Derives captured parts →
      DerivesClosure (func, captured)
        (.word "closure" :: .mark '<' :: .word func :: .mark '>' :: .mark '(' ::
          (commas parts ++ [.mark ')']))

inductive DerivesField : Span × String × Tree → List Lexeme → Prop where
  | mk {span : Span} {name : String} {tree : Tree} {ls : List Lexeme} : Derives tree ls →
      DerivesField (span, name, tree) (.word name :: .mark ':' :: ls)

end

-- Any number of types with commas between them.
def DerivesList (trees : List Tree) (ls : List Lexeme) : Prop :=
  ∃ parts, List.Forall₂ Derives trees parts ∧ ls = commas parts

section Lexes

variable {α : Type} {P : Part α} {Q : α → List Lexeme → Prop} {as : List α}
  {start stop : Cursor}

theorem Token.mark {c : Char} (h : Token [c] start stop)
    (hc : (isBlank c || startsName c || c.isDigit) = false) :
    lexemes start.rest = .mark c :: lexemes stop.rest := by
  simp only [Bool.or_eq_false_iff, and_assoc] at hc
  exact Token.lexed (l := .mark c) h hc

theorem Token.word {name : String} (h : Token name.toList start stop)
    (hname : isIdentifier name = true) (hstop : Stops isName stop.rest) :
    lexemes start.rest = .word name :: lexemes stop.rest :=
  Token.lexed (l := .word name) h ⟨hname, hstop⟩

-- Wherever the item stands in a text, it is derived for the lexemes there.
def Lexes (P : Part α) (Q : α → List Lexeme → Prop) (a : α) : Prop :=
  ∀ ⦃start stop⦄, P a start stop → Stops isName stop.rest →
    ∃ ls, Q a ls ∧ lexemes start.rest = ls ++ lexemes stop.rest

theorem Chain.lexes (h : Chain P as start stop) (has : ∀ a ∈ as, Lexes P Q a)
    (hstop : Stops isName stop.rest) :
    ∃ parts, List.Forall₂ Q as parts ∧
      lexemes start.rest = parts.flatMap (.mark ',' :: ·) ++ lexemes stop.rest := by
  induction h with
  | nil => exact ⟨[], .nil, rfl⟩
  | cons hcomma ha hrest ih =>
      obtain ⟨hfirst, has⟩ := List.forall_mem_cons.mp has
      obtain ⟨ls, hls, hlexemes⟩ := hfirst ha (Reads.chain_stops hrest hstop)
      obtain ⟨parts, hparts, hmore⟩ := ih has hstop
      refine ⟨ls :: parts, .cons hls hparts, ?_⟩
      rw [hcomma.mark rfl, hlexemes, hmore]
      simp

theorem Separated.lexes (h : Separated P as start stop) (has : ∀ a ∈ as, Lexes P Q a)
    (hstop : Stops isName stop.rest) :
    ∃ parts, List.Forall₂ Q as parts ∧ lexemes start.rest = commas parts ++ lexemes stop.rest := by
  cases h with
  | mk ha hrest =>
      obtain ⟨hfirst, has⟩ := List.forall_mem_cons.mp has
      obtain ⟨ls, hls, hlexemes⟩ := hfirst ha (Reads.chain_stops hrest hstop)
      obtain ⟨parts, hparts, hmore⟩ := hrest.lexes has hstop
      refine ⟨ls :: parts, .cons hls hparts, ?_⟩
      rw [hlexemes, hmore, commas, List.append_assoc]

theorem Items.lexes (h : Items P as start stop) (has : ∀ a ∈ as, Lexes P Q a)
    (hstop : Stops isName stop.rest) :
    ∃ parts, List.Forall₂ Q as parts ∧ lexemes start.rest = commas parts ++ lexemes stop.rest := by
  cases h with
  | none => exact ⟨[], .nil, rfl⟩
  | some h => exact h.lexes has hstop

theorem EndedItems.lexes (h : EndedItems P as start stop) (has : ∀ a ∈ as, Lexes P Q a)
    (hstop : Stops isName stop.rest) :
    ∃ parts last, List.Forall₂ Q as parts ∧ Trailing as last ∧
      lexemes start.rest = commas parts ++ (last ++ lexemes stop.rest) := by
  cases h with
  | none => exact ⟨[], [], .nil, .none, rfl⟩
  | some h =>
      obtain ⟨parts, hparts, hlexemes⟩ := h.lexes has hstop
      exact ⟨parts, [], hparts, .none, hlexemes⟩
  | ended h hcomma =>
      obtain ⟨parts, hparts, hlexemes⟩ :=
        h.lexes has (Reads.stops_of_token hcomma rfl (by decide))
      rw [hcomma.mark rfl] at hlexemes
      exact ⟨parts, [.mark ','], hparts, .comma h.ne_nil, hlexemes⟩

end Lexes

section Forms

theorem lexes_array {elem : Scalar} {digits : List Char} {rankSpan span : Span} :
    Lexes Spells Derives (.array elem digits rankSpan span) := by
  intro start stop h _
  cases h with
  | array harray hopen helem hcomma hne hdigits hrank hclose =>
      have hname : isIdentifier elem.name = true := by cases elem <;> rfl
      have hstop := Reads.stops_of_token hclose rfl (by decide)
      have hrank := Token.lexed (l := .number digits) hrank
        ⟨⟨hne, hdigits⟩, hstop.imp fun _ hc => isName_of_isWord (isWord_of_isDigit hc)⟩
      refine ⟨_, .array, ?_⟩
      rw [harray.word rfl (Reads.stops_of_token hopen rfl (by decide)), hopen.mark rfl,
        helem.word hname (Reads.stops_of_token hcomma rfl (by decide)), hcomma.mark rfl, hrank,
        hclose.mark rfl]
      rfl

theorem lexes_slice {first second third : Tree} (hfirst : Lexes Spells Derives first)
    (hsecond : Lexes Spells Derives second) (hthird : Lexes Spells Derives third) :
    Lexes Spells Derives (.slice first second third) := by
  intro start stop h _
  cases h with
  | slice hslice hopen hspells hcomma hspells' hcomma' hspells'' hclose =>
      obtain ⟨as, has, hfirst⟩ := hfirst hspells (Reads.stops_of_token hcomma rfl (by decide))
      obtain ⟨bs, hbs, hsecond⟩ := hsecond hspells' (Reads.stops_of_token hcomma' rfl (by decide))
      obtain ⟨cs, hcs, hthird⟩ := hthird hspells'' (Reads.stops_of_token hclose rfl (by decide))
      refine ⟨_, .slice has hbs hcs, ?_⟩
      rw [hslice.word rfl (Reads.stops_of_token hopen rfl (by decide)), hopen.mark rfl, hfirst,
        hcomma.mark rfl, hsecond, hcomma'.mark rfl, hthird, hclose.mark rfl]
      simp

theorem lexes_closure {func : String} {captured : List Tree}
    (hcaptured : ∀ tree ∈ captured, Lexes Spells Derives tree) :
    Lexes SpellsClosure DerivesClosure (func, captured) := by
  intro start stop h _
  cases h with
  | mk hclosure hangle hname hfunc hend hopen hitems hclose =>
      obtain ⟨parts, hparts, hlexemes⟩ := hitems.lexes hcaptured
        (Reads.stops_of_token hclose rfl (by decide))
      refine ⟨_, .mk hparts, ?_⟩
      rw [hclosure.word rfl (Reads.stops_of_token hangle rfl (by decide)), hangle.mark rfl,
        hfunc.word hname (Reads.stops_of_token hend rfl (by decide)), hend.mark rfl,
        hopen.mark rfl, hlexemes, hclose.mark rfl]
      simp

theorem lexes_closureSet {members : List (String × List Tree)}
    (hmembers : ∀ member ∈ members, Lexes SpellsClosure DerivesClosure member) :
    Lexes Spells Derives (.closureSet members) := by
  intro start stop h _
  cases h with
  | closureSet hset hopen hspells hclose =>
      obtain ⟨parts, hparts, hlexemes⟩ := hspells.lexes hmembers
        (Reads.stops_of_token hclose rfl (by decide))
      refine ⟨_, .closureSet hspells.ne_nil hparts, ?_⟩
      rw [hset.word rfl (Reads.stops_of_token hopen rfl (by decide)), hopen.mark rfl, hlexemes,
        hclose.mark rfl]
      simp

theorem lexes_tuple {elems : List Tree} (helems : ∀ tree ∈ elems, Lexes Spells Derives tree) :
    Lexes Spells Derives (.tuple elems) := by
  intro start stop h _
  cases h with
  | tuple hopen hspells hclose =>
      obtain ⟨parts, last, hparts, hlast, hlexemes⟩ := hspells.lexes helems
        (Reads.stops_of_token hclose rfl (by decide))
      refine ⟨_, .tuple hparts hlast, ?_⟩
      rw [hopen.mark rfl, hlexemes, hclose.mark rfl]
      simp

theorem lexes_field {span : Span} {name : String} {tree : Tree}
    (htree : Lexes Spells Derives tree) : Lexes SpellsField DerivesField (span, name, tree) := by
  intro start stop h hstop
  cases h with
  | mk hname hfield hcolon hspells =>
      obtain ⟨ls, hls, hlexemes⟩ := htree hspells hstop
      refine ⟨_, .mk hls, ?_⟩
      rw [hfield.word hname (Reads.stops_of_token hcolon rfl (by decide)), hcolon.mark rfl,
        hlexemes]
      rfl

theorem lexes_struct {fields : List (Span × String × Tree)}
    (hfields : ∀ field ∈ fields, Lexes SpellsField DerivesField field) :
    Lexes Spells Derives (.struct fields) := by
  intro start stop h _
  cases h with
  | struct hopen hspells hclose =>
      obtain ⟨parts, last, hparts, hlast, hlexemes⟩ := hspells.lexes hfields
        (Reads.stops_of_token hclose rfl (by decide))
      refine ⟨_, .struct hparts hlast, ?_⟩
      rw [hopen.mark rfl, hlexemes, hclose.mark rfl]
      simp

end Forms

mutual

theorem lexes_tree : ∀ tree : Tree, Lexes Spells Derives tree
  | .unknown => by
      intro start stop h _
      cases h with
      | unknown htoken => exact ⟨_, .unknown, by rw [htoken.mark rfl]; rfl⟩
  | .none => by
      intro start stop h hstop
      cases h with
      | none htoken => exact ⟨_, .none, by rw [htoken.word rfl hstop]; rfl⟩
  | .scalar kind => by
      intro start stop h hstop
      cases h with
      | scalar htoken =>
          have hname : isIdentifier kind.name = true := by cases kind <;> rfl
          exact ⟨_, .scalar, by rw [htoken.word hname hstop]; rfl⟩
  | .array .. => lexes_array
  | .slice first second third =>
      lexes_slice (lexes_tree first) (lexes_tree second) (lexes_tree third)
  | .closure func captured => by
      intro start stop h hstop
      cases h with
      | closure hclosure =>
          obtain ⟨ls, hls, hlexemes⟩ := lexes_closure (lexes_list captured) hclosure hstop
          exact ⟨ls, .closure hls, hlexemes⟩
  | .closureSet members => lexes_closureSet (lexes_members members)
  | .tuple elems => lexes_tuple (lexes_list elems)
  | .struct fields => lexes_struct (lexes_fields fields)
  termination_by structural tree => tree

theorem lexes_list : ∀ trees : List Tree, ∀ tree ∈ trees, Lexes Spells Derives tree
  | [] => nofun
  | first :: rest => List.forall_mem_cons.mpr ⟨lexes_tree first, lexes_list rest⟩
  termination_by structural trees => trees

theorem lexes_members : ∀ members : List (String × List Tree),
    ∀ member ∈ members, Lexes SpellsClosure DerivesClosure member
  | [] => nofun
  | (_, captured) :: rest =>
      List.forall_mem_cons.mpr ⟨lexes_closure (lexes_list captured), lexes_members rest⟩
  termination_by structural members => members

theorem lexes_fields : ∀ fields : List (Span × String × Tree),
    ∀ field ∈ fields, Lexes SpellsField DerivesField field
  | [] => nofun
  | (_, _, tree) :: rest =>
      List.forall_mem_cons.mpr ⟨lexes_field (lexes_tree tree), lexes_fields rest⟩
  termination_by structural fields => fields

end

end RankPoly.Signature
