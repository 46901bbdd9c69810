import Mathlib.Data.List.Nodup
import RankPoly.Proofs.Grammar
import RankPoly.Proofs.Signature.Parts

namespace RankPoly

namespace Signature

-- A complaint of a check that the nodes are as the rules make them.
inductive Defensive : String → Prop where
  | emptyType : Defensive "empty type"
  | malformedArray : Defensive "malformed array type"
  | sliceParts : Defensive "slice takes three types"
  | emptySet : Defensive "empty closure set"
  | malformedField : Defensive "malformed field"
  | noFunction : Defensive "closure without a function"
  | noType : Defensive "expected a type"
  | unknownScalar (name : String) : Defensive ("unknown scalar `" ++ name ++ "`")
  | unexpectedRule (rule : Rule) : Defensive ("unexpected " ++ rule.name)

-- They are told from other complaints by how they start.
theorem Defensive.head {text : String} (h : Defensive text) :
    text.toList.head? ∈ ['e', 'm', 's', 'c', 'u'].map some := by
  cases h <;> simp

namespace Visit

variable {visit : Visit} {complaint : Complaint}

theorem offence?_eq_some_iff : visit.offence? = some complaint ↔
    complaint.span = visit.node.span ∧
      (visit.node.rule = .digits ∧ rankLimit ≤ visit.node.count ∧
          complaint.text = "array rank out of range" ∨
        visit.node.rule = .array ∧ visit.node.rank? = some 0 ∧
          complaint.text = "array rank must be at least 1" ∨
        visit.node.rule = .field ∧ visit.node.name ∈ visit.earlier.map Node.name ∧
          complaint.text = "duplicate field `" ++ String.ofList visit.node.name ++ "`") := by
  obtain ⟨text, span⟩ := complaint
  unfold offence?
  dsimp only
  cases visit.node.rule <;> simp [eq_comm] <;> tauto

theorem isSome_offence?_iff : visit.offence?.isSome = true ↔
    visit.node.rule = .digits ∧ rankLimit ≤ visit.node.count ∨
      visit.node.rule = .array ∧ visit.node.rank? = some 0 ∨
      visit.node.rule = .field ∧ visit.node.name ∈ visit.earlier.map Node.name := by
  unfold offence?
  dsimp only
  cases visit.node.rule <;> simp

-- Only nodes that take text are refused, and it is they that are pointed to.
theorem blamed (h : visit.offence? = some complaint) :
    complaint.span = visit.node.span ∧ visit.node.rule.pattern.takesText = true := by
  obtain ⟨hspan, h⟩ := offence?_eq_some_iff.mp h
  refine ⟨hspan, ?_⟩
  rcases h with ⟨hrule, -⟩ | ⟨hrule, -⟩ | ⟨hrule, -⟩ <;> rw [hrule] <;> decide

theorem not_defensive (h : visit.offence? = some complaint) : ¬Defensive complaint.text := by
  intro hdefensive
  have hhead := hdefensive.head
  obtain ⟨-, ⟨-, -, htext⟩ | ⟨-, -, htext⟩ | ⟨-, -, htext⟩⟩ := offence?_eq_some_iff.mp h <;>
    simp [htext] at hhead

end Visit

-- What a text is refused for, or nothing.
def refusal? {α : Type} : Except Error α → Option Complaint
  | .ok _ => none
  | .error error => error.placed?

theorem Agrees.refused {α : Type} {collected : Except Complaint α} {result : Except Error α}
    (h : Agrees collected result) : refused? collected = refusal? result := by
  cases h with
  | ok a => rfl
  | error heq => exact heq.symm

theorem Agrees.of_error {α : Type} {collected : Except Complaint α} {error : Error}
    (h : Agrees collected (.error error)) :
    ∃ complaint, collected = .error complaint ∧ error.placed? = some complaint := by
  cases h with
  | error heq => exact ⟨_, rfl, heq⟩

theorem Error.placed?_span {error : Error} {complaint : Complaint}
    (h : error.placed? = some complaint) : complaint.span = error.span := by
  cases error <;> cases h <;> rfl

namespace Node

-- The digits are no rank that an array can have.
def BadRank (node : Node) : Prop :=
  node.rule = .digits ∧ (node.count = 0 ∨ rankLimit ≤ node.count)

-- Two fields of a struct have one name.
def RepeatsField (node : Node) : Prop :=
  node.rule = .struct ∧ ¬(node.inner.map name).Nodup

section Contents

variable {root : Node} {start : Cursor}

theorem not_nodup_map_iff {nodes : List Node} : ¬(nodes.map name).Nodup ↔
    ∃ before node after, nodes = before ++ node :: after ∧ node.name ∈ before.map name := by
  constructor
  · intro h
    induction nodes using List.reverseRecOn with
    | nil => exact absurd List.nodup_nil h
    | append_singleton nodes last ih =>
        by_cases hnodes : (nodes.map name).Nodup
        · refine ⟨nodes, last, [], rfl, ?_⟩
          by_contra hlast
          refine h ?_
          rw [List.map_append, List.nodup_append]
          refine ⟨hnodes, List.nodup_singleton _, fun first hfirst second hsecond heq => ?_⟩
          rw [heq, List.mem_singleton.mp hsecond] at hfirst
          exact hlast hfirst
        · obtain ⟨before, node, after, rfl, hmem⟩ := ih hnodes
          exact ⟨before, node, after ++ [last], by simp, hmem⟩
  · rintro ⟨before, node, after, rfl, hmem⟩ hnodup
    rw [List.map_append, List.nodup_append] at hnodup
    exact hnodup.2.2 _ hmem _ (.head _) rfl

theorem rule_of_digits {rule : Rule} (h : .digits ∈ rule.pattern.rules) : rule = .array := by
  revert h
  cases rule <;> decide

theorem rule_of_field {rule : Rule} (h : .field ∈ rule.pattern.rules) : rule = .struct := by
  revert h
  cases rule <;> decide

theorem rule_in_struct {rule : Rule} (h : rule ∈ Rule.struct.pattern.rules) : rule = .field := by
  revert h
  cases rule <;> decide

-- Among all nodes of a text some are refused just if one of its ranks or structs is bad.
theorem isSome_firstOffence?_iff (hstands : root.StandsBehind start)
    (hroot : root.rule = .signature ∨ root.rule = .signatureList) :
    (firstOffence? (root.visits [])).isSome = true ↔
      ∃ part : Node, part.Within root ∧ (part.BadRank ∨ part.RepeatsField) := by
  unfold firstOffence?
  rw [List.findSome?_isSome_iff]
  constructor
  · rintro ⟨visit, hvisit, hoffence⟩
    have hwithin := within_of_mem_visits hvisit
    rcases Visit.isSome_offence?_iff.mp hoffence with
      ⟨hrule, hlimit⟩ | ⟨hrule, hzero⟩ | ⟨hrule, hname⟩
    · exact ⟨visit.node, hwithin, .inl ⟨hrule, .inr hlimit⟩⟩
    · obtain ⟨elem, rank, hinner, -, hdigits⟩ := (hstands.within hwithin).array hrule
      have hcount : rank.count = 0 := by simpa [rank?, hinner] using hzero
      exact ⟨rank, hwithin.mem (by simp [hinner]), .inl ⟨hdigits, .inl hcount⟩⟩
    · rcases mem_visits.mp hvisit with rfl | ⟨parent, later, hparent, hinner⟩
      · cases hname
      · have hmem : visit.node ∈ parent.inner := by simp [hinner]
        have hasked := ((hstands.within hparent).inner hmem).1
        have hstruct := rule_of_field (hrule ▸ hasked)
        exact ⟨parent, hparent, .inr ⟨hstruct, not_nodup_map_iff.mpr ⟨_, _, _, hinner, hname⟩⟩⟩
  · rintro ⟨part, hpart, ⟨hrule, hcount⟩ | ⟨hrule, hnodup⟩⟩
    · rcases hpart.self_or_inner with rfl | ⟨parent, hparent, hmem⟩
      · simp [hrule] at hroot
      · have hstands := hstands.within hparent
        have harray := rule_of_digits (hrule ▸ (hstands.inner hmem).1)
        obtain ⟨elem, rank, hinner, hscalar, -⟩ := hstands.array harray
        have heq : part = rank := by
          rw [hinner, List.mem_cons, List.mem_singleton] at hmem
          refine hmem.resolve_left ?_
          rintro rfl
          simp [hscalar] at hrule
        subst heq
        by_cases hlimit : rankLimit ≤ part.count
        · obtain ⟨visit, hvisit, rfl⟩ := exists_mem_visits hpart []
          exact ⟨visit, hvisit, Visit.isSome_offence?_iff.mpr (.inl ⟨hrule, hlimit⟩)⟩
        · obtain ⟨visit, hvisit, rfl⟩ := exists_mem_visits hparent []
          have hzero : visit.node.rank? = some 0 := by
            simpa [rank?, hinner] using hcount.resolve_right hlimit
          exact ⟨visit, hvisit, Visit.isSome_offence?_iff.mpr (.inr (.inl ⟨harray, hzero⟩))⟩
    · obtain ⟨before, field, after, hinner, hname⟩ := not_nodup_map_iff.mp hnodup
      have hmem : field ∈ part.inner := by simp [hinner]
      have hasked := ((hstands.within hpart).inner hmem).1
      have hfield := rule_in_struct (hrule ▸ hasked)
      refine ⟨⟨before, field⟩, mem_visits.mpr (.inr ⟨part, after, hpart, hinner⟩), ?_⟩
      exact Visit.isSome_offence?_iff.mpr (.inr (.inr ⟨hfield, hname⟩))

end Contents

end Node

-- What is refused of a text and how, where its nodes are known.
structure RefusedFor {α : Type} (text : String) (root : Node) (result : Except Error α)
    (collected : Except Complaint α) : Prop where
  -- No check of the nodes stands in the way of a type.
  agrees : Agrees collected result
  undefended : ∀ complaint, collected = .error complaint → ¬Defensive complaint.text
  -- A bad rank or a field that is repeated is what there is to refuse.
  fails_iff : (∃ error, result = .error error) ↔
    ∃ part : Node, part.Within root ∧ (part.BadRank ∨ part.RepeatsField)
  -- It is the first one that counts, in the order in which the nodes end.
  first : refusal? result = firstOffence? (root.visits [])
  -- Each node is the part of the text that its span says.
  sliced : ∀ part : Node, part.Within root → ∃ before after,
    text.toList = before ++ part.text ++ after ∧
      part.span = ⟨Cursor.byteCount before, Cursor.byteCount (before ++ part.text)⟩
  located : ∀ error, result = .error error →
    error.span.start < error.span.stop ∧ error.span.stop ≤ Cursor.byteCount text.toList

section RefusedFor

variable {α : Type} {text : String} {root : Node} {result : Except Error α}
  {collected : Except Complaint α}

theorem refusedFor (hagrees : Agrees collected result)
    (hfirst : firstOffence? (root.visits []) = refused? collected)
    (hstands : root.StandsBehind ⟨text.toList, 0⟩)
    (hroot : root.rule = .signature ∨ root.rule = .signatureList) :
    RefusedFor text root result collected := by
  have hsliced : ∀ part : Node, part.Within root → _ := fun part hpart =>
    (hstands.within hpart).sliced
  have hcomplaint : ∀ complaint, firstOffence? (root.visits []) = some complaint →
      ∃ visit ∈ root.visits [], visit.offence? = some complaint := fun complaint h =>
    List.exists_of_findSome?_eq_some h
  refine ⟨hagrees, ?_, ?_, hagrees.refused ▸ hfirst.symm, hsliced, ?_⟩
  · rintro complaint rfl
    obtain ⟨visit, -, hvisit⟩ := hcomplaint complaint hfirst
    exact visit.not_defensive hvisit
  · rw [← Node.isSome_firstOffence?_iff hstands hroot, hfirst]
    cases hagrees with
    | ok a => simp [refused?]
    | error heq => simp [refused?]
  · rintro error rfl
    obtain ⟨complaint, hcollected, herror⟩ := hagrees.of_error
    obtain ⟨visit, hvisit, hoffence⟩ := hcomplaint complaint (by rw [hfirst, hcollected]; rfl)
    obtain ⟨hspan, htakes⟩ := visit.blamed hoffence
    have hnode := hstands.within (Node.within_of_mem_visits hvisit)
    have hpos := Cursor.byteCount_pos (hnode.text_ne_nil htakes)
    obtain ⟨before, after, htext, hslice⟩ := hnode.sliced
    rw [← Error.placed?_span herror, hspan, hslice, htext]
    simp only [Cursor.byteCount_append]
    omega

end RefusedFor

section Whole

variable {text : String} {root : Node}

theorem Rule.Parses.stands {rule : Rule} (h : rule.Parses text root) :
    root.StandsBehind ⟨text.toList, 0⟩ := by
  obtain ⟨stop, h⟩ := h
  exact (h.nodes root (.head _)).2

theorem parse_refusedFor (h : Rule.signature.Parses text root) :
    RefusedFor text root (Ty.parse text) (Node.collectOne text [root]) := by
  obtain ⟨_, _, _, hrule, -⟩ := readAll_of_parses_signature h
  exact refusedFor (agrees_collectOne h) (firstOffence?_signature h) h.stands (.inl hrule)

theorem parseList_refusedFor (h : Rule.signatureList.Parses text root) :
    RefusedFor text root (Ty.parseList text) (Node.collectAll [root]) := by
  obtain ⟨_, _, _, hrule, -⟩ := readAll_of_parses_signatureList h
  exact refusedFor (agrees_collectAll h) (firstOffence?_signatureList h) h.stands (.inr hrule)

-- What is refused for its syntax has no nodes.

theorem accepted_parse_iff :
    Accepted (Ty.parse text) ↔ ∃ root, Rule.signature.Parses text root := by
  have hread : Accepted (Ty.parse text) ↔ ∃ tree, readAll signature text.toList = .ok tree := by
    unfold Ty.parse
    cases readAll signature text.toList with
    | ok tree => simp [accepted_toTy tree]
    | error furthest => simp [Accepted]
  rw [hread]
  constructor
  · rintro ⟨tree, h⟩
    exact exists_parses_signature h
  · rintro ⟨root, h⟩
    obtain ⟨_, tree, _, -, -, -, h⟩ := readAll_of_parses_signature h
    exact ⟨tree, h⟩

theorem accepted_parseList_iff :
    Accepted (Ty.parseList text) ↔ ∃ root, Rule.signatureList.Parses text root := by
  have hread : Accepted (Ty.parseList text) ↔
      ∃ trees, readAll signatureList text.toList = .ok trees := by
    unfold Ty.parseList
    cases readAll signatureList text.toList with
    | ok trees => simp [accepted_listToTys trees]
    | error furthest => simp [Accepted]
  rw [hread]
  constructor
  · rintro ⟨trees, h⟩
    exact exists_parses_signatureList h
  · rintro ⟨root, h⟩
    obtain ⟨_, trees, _, -, -, -, h⟩ := readAll_of_parses_signatureList h
    exact ⟨trees, h⟩

end Whole

end Signature

open Signature

-- A text that the rules match is refused for the first of its ranks and fields that are bad, and
-- for nothing else.
theorem rejections_justified (text : String) :
    (Accepted (Ty.parse text) ↔ ∃ root, Rule.signature.Parses text root) ∧
      (∀ root, Rule.signature.Parses text root →
        RefusedFor text root (Ty.parse text) (Node.collectOne text [root])) ∧
      (Accepted (Ty.parseList text) ↔ ∃ root, Rule.signatureList.Parses text root) ∧
      ∀ root, Rule.signatureList.Parses text root →
        RefusedFor text root (Ty.parseList text) (Node.collectAll [root]) :=
  ⟨accepted_parse_iff, fun _ => parse_refusedFor, accepted_parseList_iff,
    fun _ => parseList_refusedFor⟩

-- The second field has the name of the first one, but its type is looked at before.
theorem nested_rank_rejected_first :
    ∃ root, Rule.signature.Parses "\x7bx: i64, x: array<u8, 0>\x7d" root ∧
      firstOffence? (root.visits []) = some ⟨"array rank must be at least 1", ⟨12, 24⟩⟩ ∧
      ∃ part : Node, part.Within root ∧ (part.BadRank ∨ part.RepeatsField) := by
  let text := "\x7bx: i64, x: array<u8, 0>\x7d"
  have hcomplaint : refusal? (Ty.parse text) =
      some ⟨"array rank must be at least 1", ⟨12, 24⟩⟩ := by
    decide +kernel
  have haccepted : Accepted (Ty.parse text) := by
    intro problem h
    rw [h] at hcomplaint
    cases hcomplaint
  obtain ⟨root, hroot⟩ := (rejections_justified text).1.mp haccepted
  have hrefused := (rejections_justified text).2.1 root hroot
  refine ⟨root, hroot, hrefused.first ▸ hcomplaint, hrefused.fails_iff.mp ?_⟩
  cases hparse : Ty.parse text with
  | ok ty =>
      rw [hparse] at hcomplaint
      cases hcomplaint
  | error error => exact ⟨error, rfl⟩

end RankPoly
