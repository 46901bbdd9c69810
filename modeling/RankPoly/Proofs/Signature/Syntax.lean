import RankPoly.Proofs.Signature.Node

namespace RankPoly.Signature

-- What a rule may ask for.
inductive Pattern where
  | startOfInput
  | endOfInput
  | text (word : List Char)
  | word (accepts : List Char → Bool) (goesOn : Char → Bool)
  | rule (rule : Rule)
  | seq (first second : Pattern)
  | or (first second : Pattern)
  | opt (body : Pattern)
  | many (body : Pattern)

namespace Pattern

-- Further items, each behind a comma.
def others (item : Pattern) : Pattern :=
  many (seq (text [',']) item)

-- One item or more, with commas between them.
def separated (item : Pattern) : Pattern :=
  seq item (others item)

end Pattern

open Pattern in
-- The syntax of signatures, rule by rule.
def Rule.pattern : Rule → Pattern
  | .endOfInput => .endOfInput
  | .identifier => word (fun name => isIdentifier (String.ofList name)) isName
  | .digits => word (fun digits => !digits.isEmpty && digits.all Char.isDigit) Char.isDigit
  | .scalar => word (fun name => (Scalar.ofName? (String.ofList name)).isSome) isWord
  | .none => word (· = "none".toList) isWord
  | .unknown => text ['?']
  | .array =>
    seq (text "array".toList) <| seq (text ['<']) <| seq (rule .scalar) <| seq (text [',']) <|
      seq (rule .digits) <| text ['>']
  | .slice =>
    seq (text "slice".toList) <| seq (text ['<']) <| seq (rule .ty) <| seq (text [',']) <|
      seq (rule .ty) <| seq (text [',']) <| seq (rule .ty) <| text ['>']
  | .closure =>
    seq (text "closure".toList) <| seq (text ['<']) <| seq (rule .identifier) <|
      seq (text ['>']) <| seq (text ['(']) <|
      seq (opt (separated (rule .ty))) <| text [')']
  | .closureSet =>
    seq (text "one_of".toList) <| seq (text ['[']) <|
      seq (separated (rule .closure)) <| text [']']
  | .tuple =>
    seq (text ['(']) <|
      seq (opt (seq (separated (rule .ty)) (opt (text [','])))) <| text [')']
  | .field => seq (rule .identifier) <| seq (text [':']) <| rule .ty
  | .struct =>
    seq (text ['\x7b']) <|
      seq (opt (seq (separated (rule .field)) (opt (text [','])))) <| text ['\x7d']
  | .ty =>
    or (rule .array) <| or (rule .slice) <| or (rule .closureSet) <| or (rule .closure) <|
      or (rule .tuple) <| or (rule .struct) <| or (rule .none) <| or (rule .unknown) <|
      rule .scalar
  | .signature => seq startOfInput <| seq (rule .ty) <| rule .endOfInput
  | .signatureList =>
    seq startOfInput <| seq (opt (separated (rule .ty))) <| rule .endOfInput

namespace Node

-- What a rule matched from one place to another.
def between (rule : Rule) (start stop : Cursor) (inner : List Node) : Node :=
  mk rule (start.rest.take (start.rest.length - stop.rest.length)) ⟨start.offset, stop.offset⟩ inner

theorem between_self (rule : Rule) (cursor : Cursor) (inner : List Node) :
    between rule cursor cursor inner = mk rule [] ⟨cursor.offset, cursor.offset⟩ inner := by
  simp [between]

end Node

-- A pattern can be matched from one place to another, with these nodes for the rules in it. The
-- parts of a sequence and the items of a repetition stand behind blanks. The alternatives stand
-- in no order, and a repetition ends anywhere.
inductive Matches : Pattern → List Node → Cursor → Cursor → Prop where
  | startOfInput {start : Cursor} : start.offset = 0 → Matches .startOfInput [] start start
  | endOfInput {start : Cursor} : start.rest = [] → Matches .endOfInput [] start start
  | text {word : List Char} {start : Cursor} : word <+: start.rest →
      Matches (.text word) [] start (start.advance word.length)
  | word {accepts : List Char → Bool} {goesOn : Char → Bool} {word : List Char} {start : Cursor} :
      accepts word = true → word <+: start.rest →
      Stops goesOn (start.advance word.length).rest →
      Matches (.word accepts goesOn) [] start (start.advance word.length)
  | rule {rule : Rule} {nodes : List Node} {start stop : Cursor} :
      Matches rule.pattern nodes start stop →
      Matches (.rule rule) [.between rule start stop nodes] start stop
  | seq {first second : Pattern} {nodes nodes' : List Node} {start mid stop : Cursor} :
      Matches first nodes start mid → Matches second nodes' mid.skip stop →
      Matches (.seq first second) (nodes ++ nodes') start stop
  | left {first second : Pattern} {nodes : List Node} {start stop : Cursor} :
      Matches first nodes start stop → Matches (.or first second) nodes start stop
  | right {first second : Pattern} {nodes : List Node} {start stop : Cursor} :
      Matches second nodes start stop → Matches (.or first second) nodes start stop
  | absent {body : Pattern} {start : Cursor} : Matches (.opt body) [] start start
  | present {body : Pattern} {nodes : List Node} {start stop : Cursor} :
      Matches body nodes start stop → Matches (.opt body) nodes start stop
  | nil {body : Pattern} {start : Cursor} : Matches (.many body) [] start start
  | cons {body : Pattern} {nodes nodes' : List Node} {start mid stop : Cursor} :
      Matches body nodes start.skip mid → Matches (.many body) nodes' mid stop →
      Matches (.many body) (nodes ++ nodes') start stop

-- A node of the rule stands somewhere, behind any blanks.
def Stands (rule : Rule) : Part Node := fun node start stop =>
  Matches (.rule rule) [node] start.skip stop

-- A whole text is matched by a rule.
def Rule.Parses (rule : Rule) (text : String) (root : Node) : Prop :=
  ∃ stop, Matches (.rule rule) [root] ⟨text.toList, 0⟩ stop

section Patterns

variable {first second body : Pattern} {rule : Rule} {nodes : List Node} {node : Node}
  {word : List Char} {start stop : Cursor}

theorem matches_rule : Matches (.rule rule) nodes start stop ↔
    ∃ inner, nodes = [.between rule start stop inner] ∧ Matches rule.pattern inner start stop := by
  constructor
  · rintro (_ | _ | _ | _ | h)
    exact ⟨_, rfl, h⟩
  · rintro ⟨inner, rfl, h⟩
    exact .rule h

theorem matches_seq : Matches (.seq first second) nodes start stop ↔
    ∃ before after mid, nodes = before ++ after ∧ Matches first before start mid ∧
      Matches second after mid.skip stop := by
  constructor
  · rintro (_ | _ | _ | _ | _ | ⟨h, h'⟩)
    exact ⟨_, _, _, rfl, h, h'⟩
  · rintro ⟨before, after, mid, rfl, h, h'⟩
    exact .seq h h'

theorem matches_or : Matches (.or first second) nodes start stop ↔
    Matches first nodes start stop ∨ Matches second nodes start stop := by
  constructor
  · intro h
    cases h with
    | left h => exact Or.inl h
    | right h => exact Or.inr h
  · rintro (h | h)
    · exact .left h
    · exact .right h

-- The forms of a type.
def Rule.forms : List Rule :=
  [.array, .slice, .closureSet, .closure, .tuple, .struct, .none, .unknown, .scalar]

theorem matches_forms : Matches Rule.ty.pattern nodes start stop ↔
    ∃ rule ∈ Rule.forms, Matches (.rule rule) nodes start stop := by
  simp only [Rule.pattern, matches_or, Rule.forms, List.mem_cons, List.not_mem_nil, or_false,
    exists_eq_or_imp, exists_eq_left]

theorem matches_opt : Matches (.opt body) nodes start stop ↔
    nodes = [] ∧ stop = start ∨ Matches body nodes start stop := by
  constructor
  · intro h
    cases h with
    | absent => exact Or.inl ⟨rfl, rfl⟩
    | present h => exact Or.inr h
  · rintro (⟨rfl, rfl⟩ | h)
    · exact .absent
    · exact .present h

theorem matches_many : Matches (.many body) nodes start stop ↔
    nodes = [] ∧ stop = start ∨
      ∃ before after mid, nodes = before ++ after ∧ Matches body before start.skip mid ∧
        Matches (.many body) after mid stop := by
  constructor
  · intro h
    cases h with
    | nil => exact Or.inl ⟨rfl, rfl⟩
    | cons h h' => exact Or.inr ⟨_, _, _, rfl, h, h'⟩
  · rintro (⟨rfl, rfl⟩ | ⟨before, after, mid, rfl, h, h'⟩)
    · exact .nil
    · exact .cons h h'

theorem matches_text : Matches (.text word) nodes start.skip stop ↔
    nodes = [] ∧ Token word start stop := by
  constructor
  · intro h
    cases h with
    | text h => exact ⟨rfl, h, rfl⟩
  · rintro ⟨rfl, h, rfl⟩
    exact .text h

theorem matches_word {accepts : List Char → Bool} {goesOn : Char → Bool} :
    Matches (.word accepts goesOn) nodes start.skip stop ↔
      nodes = [] ∧ ∃ word, accepts word = true ∧ Token word start stop ∧
        Stops goesOn stop.rest := by
  constructor
  · intro h
    cases h with
    | word haccepts h hstop => exact ⟨rfl, _, haccepts, ⟨h, rfl⟩, hstop⟩
  · rintro ⟨rfl, word, haccepts, ⟨h, rfl⟩, hstop⟩
    exact .word haccepts h hstop

theorem matches_endOfInput : Matches .endOfInput nodes start stop ↔
    nodes = [] ∧ stop = start ∧ start.rest = [] := by
  constructor
  · rintro (_ | h)
    exact ⟨rfl, rfl, h⟩
  · rintro ⟨rfl, rfl, h⟩
    exact .endOfInput h

-- At the end of the text.
theorem matches_end : Matches (.rule .endOfInput) nodes start stop ↔
    nodes = [.mk .endOfInput [] ⟨start.offset, start.offset⟩ []] ∧ stop = start ∧
      start.rest = [] := by
  rw [matches_rule]
  simp only [Rule.pattern, matches_endOfInput]
  constructor
  · rintro ⟨_, rfl, rfl, rfl, h⟩
    exact ⟨by rw [Node.between_self], rfl, h⟩
  · rintro ⟨rfl, rfl, h⟩
    exact ⟨[], by rw [Node.between_self], rfl, rfl, h⟩

-- At the start of the text.
theorem matches_seq_start : Matches (.seq .startOfInput second) nodes start stop ↔
    start.offset = 0 ∧ Matches second nodes start.skip stop := by
  rw [matches_seq]
  constructor
  · rintro ⟨_, after, _, rfl, ⟨h⟩, h'⟩
    exact ⟨h, h'⟩
  · rintro ⟨h, h'⟩
    exact ⟨[], nodes, start, rfl, .startOfInput h, h'⟩

theorem stands_iff : Stands rule node start stop ↔
    ∃ inner, node = .between rule start.skip stop inner ∧
      Matches rule.pattern inner start.skip stop := by
  unfold Stands
  rw [matches_rule]
  simp only [List.cons.injEq, and_true]

theorem parses_iff {text : String} : rule.Parses text node ↔
    ∃ stop inner, node = .between rule ⟨text.toList, 0⟩ stop inner ∧
      Matches rule.pattern inner ⟨text.toList, 0⟩ stop := by
  unfold Rule.Parses
  simp only [matches_rule, List.cons.injEq, and_true]

theorem matches_rule_skip : Matches (.rule rule) nodes start.skip stop ↔
    ∃ node, nodes = [node] ∧ Stands rule node start stop := by
  constructor
  · intro h
    obtain ⟨inner, rfl, -⟩ := matches_rule.mp h
    exact ⟨_, rfl, h⟩
  · rintro ⟨node, rfl, h⟩
    exact h

-- A sequence, by what it starts with.

theorem matches_seq_text : Matches (.seq (.text word) second) nodes start.skip stop ↔
    ∃ mid, Token word start mid ∧ Matches second nodes mid.skip stop := by
  simp only [matches_seq, matches_text]
  constructor
  · rintro ⟨_, after, mid, rfl, ⟨rfl, h⟩, h'⟩
    exact ⟨mid, h, h'⟩
  · rintro ⟨mid, h, h'⟩
    exact ⟨[], nodes, mid, rfl, ⟨rfl, h⟩, h'⟩

theorem matches_seq_rule : Matches (.seq (.rule rule) second) nodes start.skip stop ↔
    ∃ node after mid, nodes = node :: after ∧ Stands rule node start mid ∧
      Matches second after mid.skip stop := by
  simp only [matches_seq, matches_rule_skip]
  constructor
  · rintro ⟨_, after, mid, rfl, ⟨node, rfl, h⟩, h'⟩
    exact ⟨node, after, mid, rfl, h, h'⟩
  · rintro ⟨node, after, mid, rfl, h, h'⟩
    exact ⟨[node], after, mid, rfl, ⟨node, rfl, h⟩, h'⟩

end Patterns

section Lists

variable {second : Pattern} {P : Part (List Node)} {rule : Rule} {nodes : List Node}
  {start stop : Cursor}

-- What is matched is what stands there, but for blanks behind it.
def Lists (pattern : Pattern) (P : Part (List Node)) : Prop :=
  ∀ nodes start stop, (∃ mid, Matches pattern nodes start.skip mid ∧ mid.skip = stop) ↔
    ∃ mid, P nodes start mid ∧ mid.skip = stop

theorem Lists.seq {pattern : Pattern} (h : Lists pattern P) :
    Matches (.seq pattern second) nodes start.skip stop ↔
      ∃ items after mid, nodes = items ++ after ∧ P items start mid ∧
        Matches second after mid.skip stop := by
  rw [matches_seq]
  constructor
  · rintro ⟨items, after, mid, rfl, hitems, hsecond⟩
    obtain ⟨mid', hitems, hmid⟩ := (h items start mid.skip).mp ⟨mid, hitems, rfl⟩
    exact ⟨items, after, mid', rfl, hitems, hmid ▸ hsecond⟩
  · rintro ⟨items, after, mid, rfl, hitems, hsecond⟩
    obtain ⟨mid', hitems, hmid⟩ := (h items start mid.skip).mpr ⟨mid, hitems, rfl⟩
    exact ⟨items, after, mid', rfl, hitems, hmid ▸ hsecond⟩

-- By induction on the items, as each of them is one node.
theorem matches_others : Matches (.others (.rule rule)) nodes start stop ↔
    Chain (Stands rule) nodes start stop := by
  unfold Pattern.others
  induction nodes generalizing start with
  | nil =>
      rw [matches_many]
      simp only [matches_seq_text, matches_rule_skip]
      constructor
      · rintro (⟨-, rfl⟩ | ⟨_, _, _, hnil, ⟨_, _, _, rfl, _⟩, _⟩)
        · exact .nil
        · cases hnil
      · rintro ⟨⟩
        exact Or.inl ⟨trivial, rfl⟩
  | cons node nodes ih =>
      rw [matches_many]
      simp only [matches_seq_text, matches_rule_skip]
      constructor
      · rintro (⟨hnil, -⟩ | ⟨_, _, _, hcons, ⟨_, hcomma, _, rfl, hitem⟩, hafter⟩)
        · cases hnil
        · cases hcons
          exact .cons hcomma hitem (ih.mp hafter)
      · rintro (_ | ⟨hcomma, hitem, hafter⟩)
        exact Or.inr ⟨[node], nodes, _, rfl, ⟨_, hcomma, node, rfl, hitem⟩, ih.mpr hafter⟩

-- Blanks in front of the first comma do not count.
theorem chain_skip {α : Type} {Q : Part α} {as : List α} :
    (∃ mid, Chain Q as start.skip mid ∧ mid.skip = stop) ↔
      ∃ mid, Chain Q as start mid ∧ mid.skip = stop := by
  cases as with
  | nil =>
      constructor
      · rintro ⟨_, ⟨⟩, rfl⟩
        exact ⟨start, .nil, start.skip_skip.symm⟩
      · rintro ⟨_, ⟨⟩, rfl⟩
        exact ⟨start.skip, .nil, start.skip_skip⟩
  | cons a as =>
      constructor
      · rintro ⟨mid, _ | ⟨hcomma, ha, has⟩, rfl⟩
        exact ⟨mid, .cons (Token.skip_iff.mp hcomma) ha has, rfl⟩
      · rintro ⟨mid, _ | ⟨hcomma, ha, has⟩, rfl⟩
        exact ⟨mid, .cons (Token.skip_iff.mpr hcomma) ha has, rfl⟩

theorem lists_separated (rule : Rule) :
    Lists (.separated (.rule rule)) (Separated (Stands rule)) := by
  intro nodes start stop
  simp only [Pattern.separated, matches_seq_rule, matches_others]
  constructor
  · rintro ⟨mid, ⟨node, after, next, rfl, hfirst, hafter⟩, hmid⟩
    obtain ⟨last, hafter, hlast⟩ := chain_skip.mp ⟨mid, hafter, hmid⟩
    exact ⟨last, .mk hfirst hafter, hlast⟩
  · rintro ⟨last, ⟨hfirst, hafter⟩, hlast⟩
    obtain ⟨mid, hafter, hmid⟩ := chain_skip.mpr ⟨last, hafter, hlast⟩
    exact ⟨mid, ⟨_, _, _, rfl, hfirst, hafter⟩, hmid⟩

theorem lists_items (rule : Rule) :
    Lists (.opt (.separated (.rule rule))) (Items (Stands rule)) := by
  intro nodes start stop
  simp only [matches_opt]
  constructor
  · rintro ⟨mid, ⟨rfl, rfl⟩ | h, hmid⟩
    · exact ⟨start, .none, by rwa [Cursor.skip_skip] at hmid⟩
    · obtain ⟨last, h, hlast⟩ := (lists_separated rule nodes start stop).mp ⟨mid, h, hmid⟩
      exact ⟨last, .some h, hlast⟩
  · rintro ⟨last, _ | h, hlast⟩
    · exact ⟨start.skip, Or.inl ⟨rfl, rfl⟩, by rwa [Cursor.skip_skip]⟩
    · obtain ⟨mid, h, hmid⟩ := (lists_separated rule nodes start stop).mpr ⟨last, h, hlast⟩
      exact ⟨mid, Or.inr h, hmid⟩

theorem lists_endedItems (rule : Rule) :
    Lists (.opt (.seq (.separated (.rule rule)) (.opt (.text [','])))) (EndedItems (Stands rule)) := by
  intro nodes start stop
  simp only [matches_opt, (lists_separated rule).seq, matches_text]
  constructor
  · rintro ⟨mid, ⟨rfl, rfl⟩ | ⟨items, after, last, rfl, h, hlast⟩, hmid⟩
    · exact ⟨start, .none, by rwa [Cursor.skip_skip] at hmid⟩
    · rcases hlast with ⟨rfl, rfl⟩ | ⟨rfl, hcomma⟩
      · exact ⟨last, .some (by simpa using h), by rwa [Cursor.skip_skip] at hmid⟩
      · exact ⟨mid, .ended (by simpa using h) hcomma, hmid⟩
  · rintro ⟨last, _ | h | ⟨h, hcomma⟩, hlast⟩
    · exact ⟨start.skip, Or.inl ⟨rfl, rfl⟩, by rwa [Cursor.skip_skip]⟩
    · refine ⟨last.skip, Or.inr ⟨nodes, [], last, by simp, h, Or.inl ⟨rfl, rfl⟩⟩, ?_⟩
      rwa [Cursor.skip_skip]
    · exact ⟨last, Or.inr ⟨nodes, [], _, by simp, h, Or.inr ⟨rfl, hcomma⟩⟩, hlast⟩

end Lists

section Words

variable {rule : Rule} {accepts : List Char → Bool} {goesOn : Char → Bool} {node : Node}
  {inner : List Node} {word : List Char} {start stop : Cursor}

theorem Token.between (h : Token word start stop) :
    Node.between rule start.skip stop inner =
      .mk rule word ⟨start.skip.offset, stop.offset⟩ inner := by
  unfold Node.between
  rw [h.rest, List.length_append, Nat.add_sub_cancel, List.take_left]

-- Where a rule asks for a word, its node holds that.
theorem stands_word (hrule : rule.pattern = .word accepts goesOn) :
    Stands rule node start stop ↔
      ∃ word, accepts word = true ∧ Token word start stop ∧ Stops goesOn stop.rest ∧
        node = .mk rule word ⟨start.skip.offset, stop.offset⟩ [] := by
  rw [stands_iff, hrule]
  simp only [matches_word]
  constructor
  · rintro ⟨_, rfl, rfl, word, haccepts, h, hstop⟩
    exact ⟨word, haccepts, h, hstop, h.between⟩
  · rintro ⟨word, haccepts, h, hstop, rfl⟩
    exact ⟨[], h.between.symm, rfl, word, haccepts, h, hstop⟩

theorem stands_identifier : Stands .identifier node start stop ↔
    ∃ name, isIdentifier name = true ∧ Token name.toList start stop ∧ Stops isName stop.rest ∧
      node = .mk .identifier name.toList ⟨start.skip.offset, stop.offset⟩ [] := by
  rw [stands_word rfl]
  constructor
  · rintro ⟨word, hname, h, hstop, rfl⟩
    exact ⟨String.ofList word, hname, by simpa using h, hstop, by rw [String.toList_ofList]⟩
  · rintro ⟨name, hname, h, hstop, rfl⟩
    exact ⟨name.toList, by simpa using hname, h, hstop, rfl⟩

theorem stands_scalar : Stands .scalar node start stop ↔
    ∃ kind : Scalar, Token kind.name.toList start stop ∧ Stops isWord stop.rest ∧
      node = .mk .scalar kind.name.toList ⟨start.skip.offset, stop.offset⟩ [] := by
  rw [stands_word rfl]
  constructor
  · rintro ⟨word, hname, h, hstop, rfl⟩
    obtain ⟨kind, hkind⟩ := Option.isSome_iff_exists.mp hname
    have heq : kind.name = String.ofList word := by
      simpa using List.find?_some hkind
    have hword : word = kind.name.toList := by rw [heq, String.toList_ofList]
    subst hword
    exact ⟨kind, h, hstop, rfl⟩
  · rintro ⟨kind, h, hstop, rfl⟩
    exact ⟨kind.name.toList, by simp, h, hstop, rfl⟩

theorem stands_digits : Stands .digits node start stop ↔
    ∃ digits, digits ≠ [] ∧ (∀ c ∈ digits, c.isDigit = true) ∧ Token digits start stop ∧
      Stops Char.isDigit stop.rest ∧
      node = .mk .digits digits ⟨start.skip.offset, stop.offset⟩ [] := by
  rw [stands_word rfl]
  simp only [Bool.and_eq_true, Bool.not_eq_true', List.isEmpty_eq_false_iff, List.all_eq_true,
    and_assoc]

end Words

end RankPoly.Signature
