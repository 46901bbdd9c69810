import RankPoly.Proofs.Signature.Syntax

namespace RankPoly.Signature

namespace Tree

-- What each form has if the trees in it have it.
structure Hereditary (P : Tree → Prop) : Prop where
  unknown : P .unknown
  none : P .none
  scalar (kind : Scalar) : P (.scalar kind)
  array (elem : Scalar) (digits : List Char) (rankSpan span : Span) :
    P (.array elem digits rankSpan span)
  slice {first second third : Tree} : P first → P second → P third →
    P (.slice first second third)
  closure {func : String} {captured : List Tree} : (∀ tree ∈ captured, P tree) →
    P (.closure func captured)
  closureSet {members : List (String × List Tree)} :
    (∀ member ∈ members, ∀ tree ∈ member.2, P tree) → P (.closureSet members)
  tuple {elems : List Tree} : (∀ tree ∈ elems, P tree) → P (.tuple elems)
  struct {fields : List (Span × String × Tree)} : (∀ field ∈ fields, P field.2.2) →
    P (.struct fields)

variable {P : Tree → Prop}

mutual

theorem Hereditary.holds (h : Hereditary P) : ∀ tree : Tree, P tree
  | .unknown => h.unknown
  | .none => h.none
  | .scalar kind => h.scalar kind
  | .array elem digits rankSpan span => h.array elem digits rankSpan span
  | .slice first second third => h.slice (h.holds first) (h.holds second) (h.holds third)
  | .closure _ captured => h.closure (h.list captured)
  | .closureSet members => h.closureSet (h.members members)
  | .tuple elems => h.tuple (h.list elems)
  | .struct fields => h.struct (h.fields fields)
  termination_by structural tree => tree

theorem Hereditary.list (h : Hereditary P) : ∀ trees : List Tree, ∀ tree ∈ trees, P tree
  | [] => nofun
  | first :: rest => List.forall_mem_cons.mpr ⟨h.holds first, h.list rest⟩
  termination_by structural trees => trees

theorem Hereditary.members (h : Hereditary P) :
    ∀ members : List (String × List Tree), ∀ member ∈ members, ∀ tree ∈ member.2, P tree
  | [] => nofun
  | (_, captured) :: rest => List.forall_mem_cons.mpr ⟨h.list captured, h.members rest⟩
  termination_by structural members => members

theorem Hereditary.fields (h : Hereditary P) :
    ∀ fields : List (Span × String × Tree), ∀ field ∈ fields, P field.2.2
  | [] => nofun
  | (_, _, tree) :: rest => List.forall_mem_cons.mpr ⟨h.holds tree, h.fields rest⟩
  termination_by structural fields => fields

end

end Tree

mutual

-- The node is one for a signature, in whatever way its text is laid out.
inductive Denotes : Node → Tree → Prop where
  | mk {form : Node} {tree : Tree} {text : List Char} {span : Span} : DenotesForm form tree →
      Denotes (.mk .ty text span [form]) tree

inductive DenotesForm : Node → Tree → Prop where
  | unknown {text : List Char} {span : Span} : DenotesForm (.mk .unknown text span []) .unknown
  | none {text : List Char} {span : Span} : DenotesForm (.mk .none text span []) .none
  | scalar {kind : Scalar} {span : Span} :
      DenotesForm (.mk .scalar kind.name.toList span []) (.scalar kind)
  | array {elem : Scalar} {text digits : List Char} {span elemSpan rankSpan : Span} :
      digits ≠ [] → (∀ c ∈ digits, c.isDigit = true) →
      DenotesForm
        (.mk .array text span
          [.mk .scalar elem.name.toList elemSpan [], .mk .digits digits rankSpan []])
        (.array elem digits rankSpan span)
  | slice {first second third : Node} {tree₁ tree₂ tree₃ : Tree} {text : List Char}
      {span : Span} : Denotes first tree₁ → Denotes second tree₂ → Denotes third tree₃ →
      DenotesForm (.mk .slice text span [first, second, third]) (.slice tree₁ tree₂ tree₃)
  | closure {node : Node} {func : String} {captured : List Tree} :
      DenotesClosure node (func, captured) → DenotesForm node (.closure func captured)
  | closureSet {nodes : List Node} {members : List (String × List Tree)} {text : List Char}
      {span : Span} : nodes ≠ [] → List.Forall₂ DenotesClosure nodes members →
      DenotesForm (.mk .closureSet text span nodes) (.closureSet members)
  | tuple {nodes : List Node} {elems : List Tree} {text : List Char} {span : Span} :
      List.Forall₂ Denotes nodes elems →
      DenotesForm (.mk .tuple text span nodes) (.tuple elems)
  | struct {nodes : List Node} {fields : List (Span × String × Tree)} {text : List Char}
      {span : Span} : List.Forall₂ DenotesField nodes fields →
      DenotesForm (.mk .struct text span nodes) (.struct fields)

inductive DenotesClosure : Node → String × List Tree → Prop where
  | mk {func : String} {nodes : List Node} {captured : List Tree} {text : List Char}
      {span funcSpan : Span} : List.Forall₂ Denotes nodes captured →
      DenotesClosure (.mk .closure text span (.mk .identifier func.toList funcSpan [] :: nodes))
        (func, captured)

inductive DenotesField : Node → Span × String × Tree → Prop where
  | mk {name : String} {node : Node} {tree : Tree} {text : List Char} {span nameSpan : Span} :
      Denotes node tree →
      DenotesField (.mk .field text span [.mk .identifier name.toList nameSpan [], node])
        (span, name, tree)

end

section Lists

variable {α β : Type} {P : Part α} {Q : Part β} {R : α → β → Prop} {as : List α}
  {start stop : Cursor}

-- Wherever the item stands in a text, some other item stands for it there.
def Carries (P : Part α) (Q : Part β) (R : α → β → Prop) (a : α) : Prop :=
  ∀ ⦃start stop⦄, P a start stop → Stops isName stop.rest → ∃ b, Q b start stop ∧ R a b

theorem Chain.carried (h : Chain P as start stop) (has : ∀ a ∈ as, Carries P Q R a)
    (hstop : Stops isName stop.rest) : ∃ bs, Chain Q bs start stop ∧ List.Forall₂ R as bs := by
  induction h with
  | nil => exact ⟨[], .nil, .nil⟩
  | cons hcomma ha hrest ih =>
      obtain ⟨hfirst, has⟩ := List.forall_mem_cons.mp has
      obtain ⟨b, hb, hab⟩ := hfirst ha (Reads.chain_stops hrest hstop)
      obtain ⟨bs, hbs, habs⟩ := ih has hstop
      exact ⟨b :: bs, .cons hcomma hb hbs, .cons hab habs⟩

theorem Separated.carried (h : Separated P as start stop) (has : ∀ a ∈ as, Carries P Q R a)
    (hstop : Stops isName stop.rest) :
    ∃ bs, Separated Q bs start stop ∧ List.Forall₂ R as bs := by
  cases h with
  | mk ha hrest =>
      obtain ⟨hfirst, has⟩ := List.forall_mem_cons.mp has
      obtain ⟨b, hb, hab⟩ := hfirst ha (Reads.chain_stops hrest hstop)
      obtain ⟨bs, hbs, habs⟩ := hrest.carried has hstop
      exact ⟨b :: bs, .mk hb hbs, .cons hab habs⟩

theorem Items.carried (h : Items P as start stop) (has : ∀ a ∈ as, Carries P Q R a)
    (hstop : Stops isName stop.rest) : ∃ bs, Items Q bs start stop ∧ List.Forall₂ R as bs := by
  cases h with
  | none => exact ⟨[], .none, .nil⟩
  | some h =>
      obtain ⟨bs, hbs, habs⟩ := h.carried has hstop
      exact ⟨bs, .some hbs, habs⟩

theorem EndedItems.carried (h : EndedItems P as start stop) (has : ∀ a ∈ as, Carries P Q R a)
    (hstop : Stops isName stop.rest) :
    ∃ bs, EndedItems Q bs start stop ∧ List.Forall₂ R as bs := by
  cases h with
  | none => exact ⟨[], .none, .nil⟩
  | some h =>
      obtain ⟨bs, hbs, habs⟩ := h.carried has hstop
      exact ⟨bs, .some hbs, habs⟩
  | ended h hcomma =>
      obtain ⟨bs, hbs, habs⟩ := h.carried has (Reads.stops_of_token hcomma rfl (by decide))
      exact ⟨bs, .ended hbs hcomma, habs⟩

end Lists

-- What stands somewhere by a rule is spelled there, and the node is one for it.

section Sound

variable {node : Node}

-- The types that a node holds are understood.
def Holds (node : Node) : Prop :=
  ∀ part ∈ node.inner, Carries (Stands .ty) Spells Denotes part

theorem carries_array : Carries (Stands .array) Spells DenotesForm node := by
  intro start stop h _
  obtain ⟨inner, rfl, hbody⟩ := stands_iff.mp h
  simp only [Rule.pattern, matches_seq_text, matches_seq_rule, matches_text] at hbody
  obtain ⟨_, harray, _, hopen, elem, _, _, rfl, helem, _, hcomma, rank, _, _, rfl, hrank, rfl,
    hclose⟩ := hbody
  obtain ⟨kind, hkind, -, rfl⟩ := stands_scalar.mp helem
  obtain ⟨digits, hne, hdigits, htoken, -, rfl⟩ := stands_digits.mp hrank
  exact ⟨_, .array harray hopen hkind hcomma hne hdigits htoken hclose, .array hne hdigits⟩

theorem carries_slice (hinner : Holds node) : Carries (Stands .slice) Spells DenotesForm node := by
  intro start stop h _
  obtain ⟨inner, rfl, hbody⟩ := stands_iff.mp h
  simp only [Rule.pattern, matches_seq_text, matches_seq_rule, matches_text] at hbody
  obtain ⟨_, hslice, _, hopen, first, _, _, rfl, hfirst, _, hcomma, second, _, _, rfl, hsecond, _,
    hcomma', third, _, _, rfl, hthird, rfl, hclose⟩ := hbody
  obtain ⟨tree₁, hfirst, hdenotes₁⟩ := hinner first (.head _) hfirst
    (Reads.stops_of_token hcomma rfl (by decide))
  obtain ⟨tree₂, hsecond, hdenotes₂⟩ := hinner second (.tail _ (.head _)) hsecond
    (Reads.stops_of_token hcomma' rfl (by decide))
  obtain ⟨tree₃, hthird, hdenotes₃⟩ := hinner third (.tail _ (.tail _ (.head _))) hthird
    (Reads.stops_of_token hclose rfl (by decide))
  exact ⟨_, .slice hslice hopen hfirst hcomma hsecond hcomma' hthird hclose,
    .slice hdenotes₁ hdenotes₂ hdenotes₃⟩

theorem carries_closure (hinner : Holds node) :
    Carries (Stands .closure) SpellsClosure DenotesClosure node := by
  intro start stop h _
  obtain ⟨inner, rfl, hbody⟩ := stands_iff.mp h
  simp only [Rule.pattern, matches_seq_text, matches_seq_rule, (lists_items .ty).seq,
    matches_text] at hbody
  obtain ⟨_, hclosure, _, hangle, func, _, _, rfl, hfunc, _, hend, _, hopen, items, _, _, rfl,
    hitems, rfl, hclose⟩ := hbody
  obtain ⟨name, hname, htoken, -, rfl⟩ := stands_identifier.mp hfunc
  rw [List.append_nil] at hinner ⊢
  obtain ⟨captured, hcaptured, hdenotes⟩ := hitems.carried (fun item hitem =>
    hinner item (.tail _ hitem)) (Reads.stops_of_token hclose rfl (by decide))
  exact ⟨_, .mk hclosure hangle hname htoken hend hopen hcaptured hclose, .mk hdenotes⟩

theorem carries_closureSet
    (hinner : ∀ part ∈ node.inner, Carries (Stands .closure) SpellsClosure DenotesClosure part) :
    Carries (Stands .closureSet) Spells DenotesForm node := by
  intro start stop h _
  obtain ⟨inner, rfl, hbody⟩ := stands_iff.mp h
  simp only [Rule.pattern, matches_seq_text, (lists_separated .closure).seq, matches_text] at hbody
  obtain ⟨_, hset, _, hopen, items, _, _, rfl, hitems, rfl, hclose⟩ := hbody
  rw [List.append_nil] at hinner ⊢
  obtain ⟨members, hmembers, hdenotes⟩ := hitems.carried hinner
    (Reads.stops_of_token hclose rfl (by decide))
  exact ⟨_, .closureSet hset hopen hmembers hclose, .closureSet hitems.ne_nil hdenotes⟩

theorem carries_tuple (hinner : Holds node) : Carries (Stands .tuple) Spells DenotesForm node := by
  intro start stop h _
  obtain ⟨inner, rfl, hbody⟩ := stands_iff.mp h
  simp only [Rule.pattern, matches_seq_text, (lists_endedItems .ty).seq, matches_text] at hbody
  obtain ⟨_, hopen, items, _, _, rfl, hitems, rfl, hclose⟩ := hbody
  rw [List.append_nil] at hinner ⊢
  obtain ⟨elems, helems, hdenotes⟩ := hitems.carried hinner
    (Reads.stops_of_token hclose rfl (by decide))
  exact ⟨_, .tuple hopen helems hclose, .tuple hdenotes⟩

theorem carries_field (hinner : Holds node) :
    Carries (Stands .field) SpellsField DenotesField node := by
  intro start stop h hstop
  obtain ⟨inner, rfl, hbody⟩ := stands_iff.mp h
  simp only [Rule.pattern, matches_seq_text, matches_seq_rule, matches_rule_skip] at hbody
  obtain ⟨name, _, _, rfl, hname, _, hcolon, part, rfl, hpart⟩ := hbody
  obtain ⟨name, hidentifier, htoken, -, rfl⟩ := stands_identifier.mp hname
  obtain ⟨tree, htree, hdenotes⟩ := hinner part (.tail _ (.head _)) hpart hstop
  exact ⟨_, .mk hidentifier htoken hcolon htree, .mk hdenotes⟩

theorem carries_struct
    (hinner : ∀ part ∈ node.inner, Carries (Stands .field) SpellsField DenotesField part) :
    Carries (Stands .struct) Spells DenotesForm node := by
  intro start stop h _
  obtain ⟨inner, rfl, hbody⟩ := stands_iff.mp h
  simp only [Rule.pattern, matches_seq_text, (lists_endedItems .field).seq, matches_text] at hbody
  obtain ⟨_, hopen, items, _, _, rfl, hitems, rfl, hclose⟩ := hbody
  rw [List.append_nil] at hinner ⊢
  obtain ⟨fields, hfields, hdenotes⟩ := hitems.carried hinner
    (Reads.stops_of_token hclose rfl (by decide))
  exact ⟨_, .struct hopen hfields hclose, .struct hdenotes⟩

-- A type is one of its forms.
theorem stands_ty {start stop : Cursor} : Stands .ty node start stop ↔
    ∃ rule ∈ Rule.forms, ∃ form, Stands rule form start stop ∧
      node = .between .ty start.skip stop [form] := by
  rw [stands_iff]
  simp only [matches_forms, matches_rule_skip]
  constructor
  · rintro ⟨_, rfl, rule, hrule, form, rfl, hform⟩
    exact ⟨rule, hrule, form, hform, rfl⟩
  · rintro ⟨rule, hrule, form, hform, rfl⟩
    exact ⟨[form], rfl, rule, hrule, form, rfl, hform⟩

-- What is understood of a node, if that much is understood of the nodes in it.
structure Understood (node : Node) : Prop where
  ty : Carries (Stands .ty) Spells Denotes node
  form : ∀ rule ∈ Rule.forms, Carries (Stands rule) Spells DenotesForm node
  closure : Carries (Stands .closure) SpellsClosure DenotesClosure node
  field : Carries (Stands .field) SpellsField DenotesField node

theorem understood_of_inner (hinner : ∀ part ∈ node.inner, Understood part) :
    Understood node := by
  have hty : Holds node := fun part hpart => (hinner part hpart).ty
  have hclosure := carries_closure hty
  refine ⟨?_, ?_, hclosure, carries_field hty⟩
  · intro start stop h hstop
    obtain ⟨rule, hrule, form, hform, rfl⟩ := stands_ty.mp h
    obtain ⟨tree, htree, hdenotes⟩ := (hinner form (.head _)).form rule hrule hform hstop
    exact ⟨tree, htree, .mk hdenotes⟩
  · simp only [Rule.forms, List.forall_mem_cons]
    refine ⟨carries_array, carries_slice hty, ?_, ?_, carries_tuple hty, ?_, ?_, ?_, ?_,
      List.forall_mem_nil _⟩
    · exact carries_closureSet fun part hpart => (hinner part hpart).closure
    · intro start stop h hstop
      obtain ⟨member, hmember, hdenotes⟩ := hclosure h hstop
      exact ⟨_, .closure hmember, .closure hdenotes⟩
    · exact carries_struct fun part hpart => (hinner part hpart).field
    · intro start stop h _
      obtain ⟨_, hnone, htoken, -, rfl⟩ := (stands_word rfl).mp h
      exact ⟨_, .none (of_decide_eq_true hnone ▸ htoken), .none⟩
    · intro start stop h _
      obtain ⟨_, rfl, hbody⟩ := stands_iff.mp h
      obtain ⟨rfl, htoken⟩ := matches_text.mp hbody
      exact ⟨_, .unknown htoken, .unknown⟩
    · intro start stop h _
      obtain ⟨kind, htoken, -, rfl⟩ := stands_scalar.mp h
      exact ⟨_, .scalar htoken, .scalar⟩

end Sound

theorem understood : ∀ node : Node, Understood node :=
  Node.induction fun _ => understood_of_inner

-- What is spelled somewhere stands there by a rule.

section Complete

-- Some node stands for what is spelled.
def Built {α : Type} (P : Part α) (rule : Rule) (a : α) : Prop :=
  Carries P (Stands rule) (fun _ _ => True) a

theorem exists_stands {rule : Rule} {start stop : Cursor}
    (h : ∃ inner, Matches rule.pattern inner start.skip stop) :
    ∃ node, Stands rule node start stop ∧ True := by
  obtain ⟨inner, h⟩ := h
  exact ⟨_, stands_iff.mpr ⟨inner, rfl, h⟩, trivial⟩

theorem built_ty {tree : Tree} (rule : Rule) (hrule : rule ∈ Rule.forms)
    (h : Built Spells rule tree) : Built Spells .ty tree := by
  intro start stop hspells hstop
  obtain ⟨form, hform, -⟩ := h hspells hstop
  exact ⟨_, stands_ty.mpr ⟨rule, hrule, form, hform, rfl⟩, trivial⟩

theorem built_array {elem : Scalar} {digits : List Char} {rankSpan span : Span} :
    Built Spells .array (.array elem digits rankSpan span) := by
  intro start stop h _
  cases h with
  | array harray hopen helem hcomma hne hdigits hrank hclose =>
      have hstop := Reads.stops_of_token hcomma rfl (by decide)
      have hscalar := stands_scalar.mpr
        ⟨elem, helem, hstop.imp fun _ => isName_of_isWord, rfl⟩
      have hstop := Reads.stops_of_token hclose rfl (by decide)
      have hdigits := stands_digits.mpr ⟨digits, hne, hdigits, hrank,
        hstop.imp fun _ hc => isName_of_isWord (isWord_of_isDigit hc), rfl⟩
      refine exists_stands ?_
      simp only [Rule.pattern, matches_seq_text, matches_seq_rule, matches_text]
      exact ⟨_, _, harray, _, hopen, _, _, _, rfl, hscalar, _, hcomma, _, _, _, rfl, hdigits, rfl,
        hclose⟩

theorem built_slice {first second third : Tree} (hfirst : Built Spells .ty first)
    (hsecond : Built Spells .ty second) (hthird : Built Spells .ty third) :
    Built Spells .slice (.slice first second third) := by
  intro start stop h _
  cases h with
  | slice hslice hopen hspells hcomma hspells' hcomma' hspells'' hclose =>
      obtain ⟨_, hfirst, -⟩ := hfirst hspells (Reads.stops_of_token hcomma rfl (by decide))
      obtain ⟨_, hsecond, -⟩ := hsecond hspells' (Reads.stops_of_token hcomma' rfl (by decide))
      obtain ⟨_, hthird, -⟩ := hthird hspells'' (Reads.stops_of_token hclose rfl (by decide))
      refine exists_stands ?_
      simp only [Rule.pattern, matches_seq_text, matches_seq_rule, matches_text]
      exact ⟨_, _, hslice, _, hopen, _, _, _, rfl, hfirst, _, hcomma, _, _, _, rfl, hsecond, _,
        hcomma', _, _, _, rfl, hthird, rfl, hclose⟩

theorem built_closure {func : String} {captured : List Tree}
    (hcaptured : ∀ tree ∈ captured, Built Spells .ty tree) :
    Built SpellsClosure .closure (func, captured) := by
  intro start stop h _
  cases h with
  | mk hclosure hangle hname hfunc hend hopen hitems hclose =>
      have hstop := Reads.stops_of_token hend rfl (by decide)
      have hfunc := stands_identifier.mpr ⟨func, hname, hfunc, hstop, rfl⟩
      obtain ⟨_, hitems, -⟩ := hitems.carried hcaptured
        (Reads.stops_of_token hclose rfl (by decide))
      refine exists_stands ?_
      simp only [Rule.pattern, matches_seq_text, matches_seq_rule, (lists_items .ty).seq,
        matches_text]
      exact ⟨_, _, hclosure, _, hangle, _, _, _, rfl, hfunc, _, hend, _, hopen, _, _, _, rfl, hitems,
        rfl, hclose⟩

theorem built_closureSet {members : List (String × List Tree)}
    (hmembers : ∀ member ∈ members, Built SpellsClosure .closure member) :
    Built Spells .closureSet (.closureSet members) := by
  intro start stop h _
  cases h with
  | closureSet hset hopen hitems hclose =>
      obtain ⟨_, hitems, -⟩ := hitems.carried hmembers
        (Reads.stops_of_token hclose rfl (by decide))
      refine exists_stands ?_
      simp only [Rule.pattern, matches_seq_text, (lists_separated .closure).seq, matches_text]
      exact ⟨_, _, hset, _, hopen, _, _, _, rfl, hitems, rfl, hclose⟩

theorem built_tuple {elems : List Tree} (helems : ∀ tree ∈ elems, Built Spells .ty tree) :
    Built Spells .tuple (.tuple elems) := by
  intro start stop h _
  cases h with
  | tuple hopen hitems hclose =>
      obtain ⟨_, hitems, -⟩ := hitems.carried helems
        (Reads.stops_of_token hclose rfl (by decide))
      refine exists_stands ?_
      simp only [Rule.pattern, matches_seq_text, (lists_endedItems .ty).seq, matches_text]
      exact ⟨_, _, hopen, _, _, _, rfl, hitems, rfl, hclose⟩

theorem built_field {span : Span} {name : String} {tree : Tree} (htree : Built Spells .ty tree) :
    Built SpellsField .field (span, name, tree) := by
  intro start stop h hstop
  cases h with
  | mk hidentifier hname hcolon hspells =>
      have hname := stands_identifier.mpr
        ⟨name, hidentifier, hname, Reads.stops_of_token hcolon rfl (by decide), rfl⟩
      obtain ⟨_, htree, -⟩ := htree hspells hstop
      refine exists_stands ?_
      simp only [Rule.pattern, matches_seq_text, matches_seq_rule, matches_rule_skip]
      exact ⟨_, _, _, _, rfl, hname, _, hcolon, _, rfl, htree⟩

theorem built_struct {fields : List (Span × String × Tree)}
    (hfields : ∀ field ∈ fields, Built SpellsField .field field) :
    Built Spells .struct (.struct fields) := by
  intro start stop h _
  cases h with
  | struct hopen hitems hclose =>
      obtain ⟨_, hitems, -⟩ := hitems.carried hfields
        (Reads.stops_of_token hclose rfl (by decide))
      refine exists_stands ?_
      simp only [Rule.pattern, matches_seq_text, (lists_endedItems .field).seq, matches_text]
      exact ⟨_, _, hopen, _, _, _, rfl, hitems, rfl, hclose⟩

theorem built_tree : ∀ tree : Tree, Built Spells .ty tree :=
  Tree.Hereditary.holds
    { unknown := built_ty .unknown (by decide) <| by
        intro start stop h _
        cases h with
        | unknown htoken => exact exists_stands ⟨[], matches_text.mpr ⟨rfl, htoken⟩⟩
      none := built_ty .none (by decide) <| by
        intro start stop h hstop
        cases h with
        | none htoken =>
            have hword := hstop.imp fun _ => isName_of_isWord
            exact ⟨_, (stands_word rfl).mpr ⟨_, by decide, htoken, hword, rfl⟩, trivial⟩
      scalar := fun kind => built_ty .scalar (by decide) <| by
        intro start stop h hstop
        cases h with
        | scalar htoken =>
            have hword := hstop.imp fun _ => isName_of_isWord
            exact ⟨_, stands_scalar.mpr ⟨kind, htoken, hword, rfl⟩, trivial⟩
      array := fun _ _ _ _ => built_ty .array (by decide) built_array
      slice := fun hfirst hsecond hthird =>
        built_ty .slice (by decide) (built_slice hfirst hsecond hthird)
      closure := fun hcaptured => built_ty .closure (by decide) <| by
        intro start stop h hstop
        cases h with
        | closure hclosure => exact built_closure hcaptured hclosure hstop
      closureSet := fun hmembers =>
        built_ty .closureSet (by decide)
          (built_closureSet fun member hmem => built_closure (hmembers member hmem))
      tuple := fun helems => built_ty .tuple (by decide) (built_tuple helems)
      struct := fun hfields =>
        built_ty .struct (by decide)
          (built_struct fun field hmem => built_field (hfields field hmem)) }

end Complete

section Whole

variable {text : String} {root : Node}

theorem parses_signature_iff : Rule.signature.Parses text root ↔
    ∃ node last, Stands .ty node ⟨text.toList, 0⟩ last ∧ last.skip.rest = [] ∧
      root = .between .signature ⟨text.toList, 0⟩ last.skip
        [node, .mk .endOfInput [] ⟨last.skip.offset, last.skip.offset⟩ []] := by
  simp only [parses_iff, Rule.pattern, matches_seq_start, matches_seq_rule, matches_end]
  constructor
  · rintro ⟨_, _, hroot, -, node, _, last, rfl, hnode, rfl, rfl, hend⟩
    exact ⟨node, last, hnode, hend, hroot⟩
  · rintro ⟨node, last, hnode, hend, rfl⟩
    exact ⟨_, _, rfl, trivial, node, _, last, rfl, hnode, rfl, rfl, hend⟩

theorem parses_signatureList_iff : Rule.signatureList.Parses text root ↔
    ∃ nodes last, Items (Stands .ty) nodes ⟨text.toList, 0⟩ last ∧ last.skip.rest = [] ∧
      root = .between .signatureList ⟨text.toList, 0⟩ last.skip
        (nodes ++ [.mk .endOfInput [] ⟨last.skip.offset, last.skip.offset⟩ []]) := by
  simp only [parses_iff, Rule.pattern, matches_seq_start, (lists_items .ty).seq, matches_end]
  constructor
  · rintro ⟨_, _, hroot, -, nodes, _, last, rfl, hnodes, rfl, rfl, hend⟩
    exact ⟨nodes, last, hnodes, hend, hroot⟩
  · rintro ⟨nodes, last, hnodes, hend, rfl⟩
    exact ⟨_, _, rfl, trivial, nodes, _, last, rfl, hnodes, rfl, rfl, hend⟩

theorem exists_parses_signature {tree : Tree} (h : readAll signature text.toList = .ok tree) :
    ∃ root, Rule.signature.Parses text root := by
  obtain ⟨last, hspells, hend⟩ := readAll_signature_iff.mp h
  obtain ⟨node, hnode, -⟩ := built_tree tree hspells (stops_of_end hend)
  exact ⟨_, parses_signature_iff.mpr ⟨node, last, hnode, hend, rfl⟩⟩

theorem exists_parses_signatureList {trees : List Tree}
    (h : readAll signatureList text.toList = .ok trees) :
    ∃ root, Rule.signatureList.Parses text root := by
  obtain ⟨last, hitems, hend⟩ := readAll_signatureList_iff.mp h
  obtain ⟨nodes, hnodes, -⟩ := hitems.carried (fun tree _ => built_tree tree) (stops_of_end hend)
  exact ⟨_, parses_signatureList_iff.mpr ⟨nodes, last, hnodes, hend, rfl⟩⟩

-- A text that is matched is read, and the nodes are those for what is read.

theorem readAll_of_parses_signature (h : Rule.signature.Parses text root) :
    ∃ node tree span, root.rule = .signature ∧
      root.inner = [node, .mk .endOfInput [] span []] ∧ Denotes node tree ∧
      readAll signature text.toList = .ok tree := by
  obtain ⟨node, last, hnode, hend, rfl⟩ := parses_signature_iff.mp h
  obtain ⟨tree, hspells, hdenotes⟩ := (understood node).ty hnode (stops_of_end hend)
  exact ⟨node, tree, _, rfl, rfl, hdenotes, readAll_signature_iff.mpr ⟨last, hspells, hend⟩⟩

theorem readAll_of_parses_signatureList (h : Rule.signatureList.Parses text root) :
    ∃ nodes trees span, root.rule = .signatureList ∧
      root.inner = nodes ++ [.mk .endOfInput [] span []] ∧ List.Forall₂ Denotes nodes trees ∧
      readAll signatureList text.toList = .ok trees := by
  obtain ⟨nodes, last, hnodes, hend, rfl⟩ := parses_signatureList_iff.mp h
  obtain ⟨trees, hspells, hdenotes⟩ :=
    hnodes.carried (fun node _ => (understood node).ty) (stops_of_end hend)
  exact ⟨nodes, trees, _, rfl, rfl, hdenotes,
    readAll_signatureList_iff.mpr ⟨last, hspells, hend⟩⟩

end Whole

end RankPoly.Signature
