import RankPoly.Proofs.Signature.Offence

namespace RankPoly.Signature

namespace Cursor

-- A place is another one or lies behind it.
def Reaches (start stop : Cursor) : Prop :=
  ∃ word, start.rest = word ++ stop.rest ∧ stop.offset = start.offset + byteCount word

variable {start mid stop : Cursor}

theorem foldl_utf8Size (text : List Char) (count : Nat) :
    text.foldl (fun count c => count + c.utf8Size) count = count + byteCount text := by
  induction text generalizing count with
  | nil => rfl
  | cons c text ih =>
      rw [byteCount, List.foldl_cons, List.foldl_cons, ih, ih, Nat.zero_add, Nat.add_assoc]

theorem byteCount_append (text text' : List Char) :
    byteCount (text ++ text') = byteCount text + byteCount text' := by
  rw [byteCount, List.foldl_append, foldl_utf8Size text', ← byteCount]

theorem byteCount_pos {text : List Char} (h : text ≠ []) : 0 < byteCount text := by
  obtain ⟨c, rest, rfl⟩ := List.exists_cons_of_ne_nil h
  rw [byteCount, List.foldl_cons, foldl_utf8Size, Nat.zero_add]
  exact Nat.add_pos_left c.utf8Size_pos _

theorem Reaches.refl (cursor : Cursor) : cursor.Reaches cursor :=
  ⟨[], rfl, rfl⟩

theorem Reaches.trans (h : start.Reaches mid) (h' : mid.Reaches stop) : start.Reaches stop := by
  obtain ⟨word, hrest, hoffset⟩ := h
  obtain ⟨word', hrest', hoffset'⟩ := h'
  refine ⟨word ++ word', ?_, ?_⟩
  · rw [hrest, hrest', List.append_assoc]
  · rw [hoffset', hoffset, byteCount_append, Nat.add_assoc]

theorem reaches_advance {word : List Char} (h : word <+: start.rest) :
    start.Reaches (start.advance word.length) := by
  refine ⟨word, (rest_advance h).symm, ?_⟩
  rw [advance, ← List.prefix_iff_eq_take.mp h]

theorem reaches_skip (cursor : Cursor) : cursor.Reaches cursor.skip :=
  reaches_advance (List.takeWhile_prefix isBlank)

end Cursor

theorem Matches.reaches {pattern : Pattern} {nodes : List Node} {start stop : Cursor}
    (h : Matches pattern nodes start stop) : start.Reaches stop := by
  induction h with
  | startOfInput | endOfInput | absent | nil => exact .refl _
  | text hword => exact Cursor.reaches_advance hword
  | word _ hword => exact Cursor.reaches_advance hword
  | rule _ ih => exact ih
  | seq _ _ ih ih' => exact ih.trans ((Cursor.reaches_skip _).trans ih')
  | left _ ih => exact ih
  | right _ ih => exact ih
  | present _ ih => exact ih
  | cons _ _ ih ih' => exact (Cursor.reaches_skip _).trans (ih.trans ih')

namespace Pattern

-- The rules that a pattern asks for.
def rules : Pattern → List Rule
  | startOfInput | endOfInput | text _ | word _ _ => []
  | .rule asked => [asked]
  | seq first second | or first second => first.rules ++ second.rules
  | opt body | many body => body.rules

-- Whatever rules take, this cannot be matched by nothing.
def takesText : Pattern → Bool
  | text chars => !chars.isEmpty
  | word accepts _ => !accepts []
  | seq first second => first.takesText || second.takesText
  | or first second => first.takesText && second.takesText
  | startOfInput | endOfInput | .rule _ | opt _ | many _ => false

end Pattern

theorem Cursor.Reaches.length_le {start stop : Cursor} (h : start.Reaches stop) :
    stop.rest.length ≤ start.rest.length := by
  obtain ⟨word, hrest, -⟩ := h
  simp [hrest]

theorem Cursor.length_advance_lt {start : Cursor} {word : List Char} (h : word <+: start.rest)
    (hne : word ≠ []) : (start.advance word.length).rest.length < start.rest.length := by
  rw [← rest_advance h, List.length_append]
  exact Nat.lt_add_of_pos_left (List.length_pos_iff.mpr hne)

theorem Matches.shorter {pattern : Pattern} {nodes : List Node} {start stop : Cursor}
    (h : Matches pattern nodes start stop) (htakes : pattern.takesText = true) :
    stop.rest.length < start.rest.length := by
  induction h with
  | text hword => exact Cursor.length_advance_lt hword (by simpa [Pattern.takesText] using htakes)
  | word haccepts hword =>
      refine Cursor.length_advance_lt hword ?_
      rintro rfl
      simp [Pattern.takesText, haccepts] at htakes
  | seq h h' ih ih' =>
      have hfirst := h.reaches.length_le
      have hskip := (Cursor.reaches_skip _).length_le.trans hfirst
      have hsecond := h'.reaches.length_le
      rcases Bool.or_eq_true _ _ |>.mp htakes with htakes | htakes
      · have := ih htakes
        have := (Cursor.reaches_skip _).length_le.trans_lt this
        omega
      · have := ih' htakes
        omega
  | left _ ih => exact ih (Bool.and_eq_true _ _ |>.mp htakes).1
  | right _ ih => exact ih (Bool.and_eq_true _ _ |>.mp htakes).2
  | startOfInput | endOfInput | rule | absent | present | nil | cons => cases htakes

-- The node is what its own rule matched, at a place or behind it.
def Node.StandsBehind (start : Cursor) (node : Node) : Prop :=
  ∃ first last inner, start.Reaches first ∧ node = .between node.rule first last inner ∧
    Matches node.rule.pattern inner first last

theorem Node.StandsBehind.mono {start mid : Cursor} {node : Node} (h : node.StandsBehind mid)
    (hreaches : start.Reaches mid) : node.StandsBehind start := by
  obtain ⟨first, last, inner, hfirst, h⟩ := h
  exact ⟨first, last, inner, hreaches.trans hfirst, h⟩

theorem Matches.nodes {pattern : Pattern} {nodes : List Node} {start stop : Cursor}
    (h : Matches pattern nodes start stop) :
    ∀ node ∈ nodes, node.rule ∈ pattern.rules ∧ node.StandsBehind start := by
  induction h with
  | startOfInput | endOfInput | text | word | absent | nil => exact List.forall_mem_nil _
  | rule h _ =>
      intro node hnode
      obtain rfl := List.mem_singleton.mp hnode
      exact ⟨List.mem_singleton.mpr rfl, _, _, _, .refl _, rfl, h⟩
  | seq h _ ih ih' =>
      intro node hnode
      rcases List.mem_append.mp hnode with hnode | hnode
      · obtain ⟨hrule, hstands⟩ := ih node hnode
        exact ⟨List.mem_append_left _ hrule, hstands⟩
      · obtain ⟨hrule, hstands⟩ := ih' node hnode
        refine ⟨List.mem_append_right _ hrule, hstands.mono ?_⟩
        exact h.reaches.trans (Cursor.reaches_skip _)
  | left _ ih => exact fun node hnode => (ih node hnode).imp_left (List.mem_append_left _)
  | right _ ih => exact fun node hnode => (ih node hnode).imp_left (List.mem_append_right _)
  | present _ ih => exact ih
  | cons h _ ih ih' =>
      intro node hnode
      have hskip := Cursor.reaches_skip
      rcases List.mem_append.mp hnode with hnode | hnode
      · obtain ⟨hrule, hstands⟩ := ih node hnode
        exact ⟨hrule, hstands.mono (hskip _)⟩
      · obtain ⟨hrule, hstands⟩ := ih' node hnode
        exact ⟨hrule, hstands.mono ((hskip _).trans h.reaches)⟩

namespace Node

-- A node, or one that is in it somewhere.
inductive Within : Node → Node → Prop where
  | self {root : Node} : Within root root
  | inner {part node root : Node} : node ∈ root.inner → Within part node → Within part root

variable {part parent root node : Node} {start : Cursor}

theorem Within.mem (h : parent.Within root) (hpart : part ∈ parent.inner) : part.Within root := by
  induction h with
  | self => exact .inner hpart .self
  | inner hnode _ ih => exact .inner hnode ih

-- What is in a node is either the whole of it or stands in some other node.
theorem Within.self_or_inner (h : part.Within root) :
    part = root ∨ ∃ parent : Node, parent.Within root ∧ part ∈ parent.inner := by
  induction h with
  | self => exact Or.inl rfl
  | @inner node root hnode _ ih =>
      rcases ih with rfl | ⟨parent, hparent, hpart⟩
      · exact Or.inr ⟨root, .self, hnode⟩
      · exact Or.inr ⟨parent, .inner hnode hparent, hpart⟩

theorem StandsBehind.inner (h : root.StandsBehind start) (hpart : part ∈ root.inner) :
    part.rule ∈ root.rule.pattern.rules ∧ part.StandsBehind start := by
  obtain ⟨first, last, inner, hfirst, hroot, hinner⟩ := h
  rw [hroot] at hpart
  obtain ⟨hrule, hstands⟩ := hinner.nodes part hpart
  exact ⟨hrule, hstands.mono hfirst⟩

theorem StandsBehind.within (h : root.StandsBehind start) (hpart : part.Within root) :
    part.StandsBehind start := by
  induction hpart with
  | self => exact h
  | inner hnode _ ih => exact ih (h.inner hnode).2

-- What a node holds is what its rule took.
theorem StandsBehind.text_eq (h : node.StandsBehind start) :
    ∃ first last inner, start.Reaches first ∧ first.rest = node.text ++ last.rest ∧
      last.offset = first.offset + Cursor.byteCount node.text ∧
      node.span = ⟨first.offset, last.offset⟩ ∧ Matches node.rule.pattern inner first last := by
  obtain ⟨first, last, inner, hfirst, hnode, hinner⟩ := h
  obtain ⟨word, hword, hlast⟩ := hinner.reaches
  have htext : node.text = word := by
    rw [hnode, between, text, hword, List.length_append, Nat.add_sub_cancel, List.take_left]
  exact ⟨first, last, inner, hfirst, htext ▸ hword, htext ▸ hlast, by rw [hnode]; rfl, hinner⟩

theorem StandsBehind.text_ne_nil (h : node.StandsBehind start)
    (htakes : node.rule.pattern.takesText = true) : node.text ≠ [] := by
  obtain ⟨first, last, inner, -, hrest, -, -, hinner⟩ := h.text_eq
  intro hnil
  have hshorter := hinner.shorter htakes
  rw [hrest, hnil] at hshorter
  exact Nat.lt_irrefl _ hshorter

-- Each node stands where its span says.
theorem StandsBehind.sliced {source : List Char} (h : node.StandsBehind ⟨source, 0⟩) :
    ∃ before after, source = before ++ node.text ++ after ∧
      node.span = ⟨Cursor.byteCount before, Cursor.byteCount (before ++ node.text)⟩ := by
  obtain ⟨first, last, -, ⟨before, hbefore, hfirst⟩, hrest, hlast, hspan, -⟩ := h.text_eq
  refine ⟨before, last.rest, ?_, ?_⟩
  · rw [List.append_assoc, ← hrest]
    exact hbefore
  · rw [hspan, Cursor.byteCount_append, hlast, hfirst, Nat.zero_add]

-- The parts of an array are its kind and its rank.
theorem StandsBehind.array (h : node.StandsBehind start) (hrule : node.rule = .array) :
    ∃ elem rank, node.inner = [elem, rank] ∧ elem.rule = .scalar ∧ rank.rule = .digits := by
  obtain ⟨first, last, inner, -, hnode, hinner⟩ := h
  rw [hrule] at hinner
  rw [hnode]
  simp only [Rule.pattern, matches_seq, matches_rule] at hinner
  obtain ⟨_, _, _, rfl, harray, _, _, _, rfl, hopen, _, _, _, rfl, ⟨_, rfl, -⟩, _, _, _, rfl,
    hcomma, _, _, _, rfl, ⟨_, rfl, -⟩, hclose⟩ := hinner
  cases harray
  cases hopen
  cases hcomma
  cases hclose
  exact ⟨_, _, rfl, rfl, rfl⟩

section Visits

variable {visit : Visit} {earlier nodes : List Node}

theorem mem_innerVisits : visit ∈ innerVisits earlier nodes ↔
    ∃ before node after, nodes = before ++ node :: after ∧
      visit ∈ node.visits (earlier ++ before) := by
  induction nodes generalizing earlier with
  | nil => simp [innerVisits]
  | cons first rest ih =>
      rw [innerVisits, List.mem_append, ih]
      constructor
      · rintro (h | ⟨before, node, after, rfl, h⟩)
        · exact ⟨[], first, rest, rfl, by simpa using h⟩
        · exact ⟨first :: before, node, after, rfl, by simpa using h⟩
      · rintro ⟨before, node, after, hnodes, h⟩
        cases before with
        | nil =>
            cases hnodes
            exact Or.inl (by simpa using h)
        | cons _ before =>
            cases hnodes
            exact Or.inr ⟨before, node, after, rfl, by simpa using h⟩

theorem mem_visits_iff : visit ∈ root.visits earlier ↔
    visit ∈ innerVisits [] root.inner ∨ visit = ⟨earlier, root⟩ := by
  obtain ⟨rule, text, span, inner⟩ := root
  rw [visits, List.mem_append, List.mem_singleton]
  rfl

-- All nodes within a node are visited, with those before them.
theorem mem_visits : visit ∈ root.visits earlier ↔
    visit = ⟨earlier, root⟩ ∨
      ∃ (parent : Node) (later : List Node), parent.Within root ∧
        parent.inner = visit.earlier ++ visit.node :: later := by
  constructor
  · induction root using Node.induction generalizing earlier with
    | h root ih =>
        intro h
        rcases mem_visits_iff.mp h with h | rfl
        · obtain ⟨before, node, after, hinner, h⟩ := mem_innerVisits.mp h
          have hnode : node ∈ root.inner := by simp [hinner]
          rcases ih node hnode h with rfl | ⟨parent, later, hparent, hlater⟩
          · exact Or.inr ⟨root, after, .self, hinner⟩
          · exact Or.inr ⟨parent, later, .inner hnode hparent, hlater⟩
        · exact Or.inl rfl
  · rintro (rfl | ⟨parent, later, hparent, hlater⟩)
    · exact mem_visits_iff.mpr (Or.inr rfl)
    · induction hparent generalizing earlier with
      | self =>
          refine mem_visits_iff.mpr (Or.inl (mem_innerVisits.mpr ⟨_, _, _, hlater, ?_⟩))
          exact mem_visits_iff.mpr (Or.inr rfl)
      | inner hnode _ ih =>
          obtain ⟨before, after, hinner⟩ := List.append_of_mem hnode
          refine mem_visits_iff.mpr (Or.inl (mem_innerVisits.mpr ⟨_, _, _, hinner, ?_⟩))
          exact ih

theorem within_of_mem_visits (h : visit ∈ root.visits earlier) : visit.node.Within root := by
  rcases mem_visits.mp h with rfl | ⟨parent, later, hparent, hinner⟩
  · exact .self
  · exact hparent.mem (by simp [hinner])

theorem exists_mem_visits (h : part.Within root) (earlier : List Node) :
    ∃ visit ∈ root.visits earlier, visit.node = part := by
  rcases h.self_or_inner with rfl | ⟨parent, hparent, hpart⟩
  · exact ⟨_, mem_visits.mpr (Or.inl rfl), rfl⟩
  · obtain ⟨before, after, hinner⟩ := List.append_of_mem hpart
    exact ⟨⟨before, part⟩, mem_visits.mpr (Or.inr ⟨parent, after, hparent, hinner⟩), rfl⟩

end Visits

end Node

end RankPoly.Signature
