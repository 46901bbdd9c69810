import RankPoly.Proofs.NameMap
import RankPoly.Proofs.Signature.Collected

namespace RankPoly.Signature

-- A node, and those that stand before it in the same node.
structure Visit where
  earlier : List Node
  node : Node

namespace Node

mutual

-- All nodes within a node, each behind those within it.
def visits (earlier : List Node) : Node → List Visit
  | mk rule text span inner => innerVisits [] inner ++ [⟨earlier, mk rule text span inner⟩]

def innerVisits (earlier : List Node) : List Node → List Visit
  | [] => []
  | node :: rest => visits earlier node ++ innerVisits (earlier ++ [node]) rest

end

-- The number that digits denote.
def count (node : Node) : Nat :=
  Nat.ofDigitChars 10 node.text 0

-- The rank of an array.
def rank? (node : Node) : Option Nat :=
  node.inner[1]?.map count

-- What stands first in a field.
def name (node : Node) : List Char :=
  match node.inner with
  | name :: _ => name.text
  | [] => []

end Node

namespace Visit

-- What a node is refused for, apart from what the nodes within it are refused for. Ranks are
-- counted in 64 bits.
def offence? (visit : Visit) : Option Complaint :=
  let node := visit.node
  match node.rule with
  | .digits =>
    if rankLimit ≤ node.count then some ⟨"array rank out of range", node.span⟩ else none
  | .array =>
    if node.rank? = some 0 then some ⟨"array rank must be at least 1", node.span⟩ else none
  | .field =>
    if node.name ∈ visit.earlier.map Node.name then
      some ⟨"duplicate field `" ++ String.ofList node.name ++ "`", node.span⟩
    else none
  | _ => none

end Visit

-- The first of the nodes that is refused, in the order of their ends.
def firstOffence? (visits : List Visit) : Option Complaint :=
  visits.findSome? Visit.offence?

-- Why there is no result.
def refused? {α : Type} : Except Complaint α → Option Complaint
  | .ok _ => none
  | .error complaint => some complaint

section Refused

variable {α β : Type}

theorem refused?_bind {result : Except Complaint α} {k : α → Except Complaint β}
    {complaint? : Option Complaint} (hk : ∀ a, result = .ok a → refused? (k a) = complaint?) :
    refused? (result >>= k) = (refused? result).or complaint? := by
  cases result with
  | ok a => exact hk a rfl
  | error complaint => rfl

theorem refused?_bind_none {result : Except Complaint α} {k : α → Except Complaint β}
    (hk : ∀ a, result = .ok a → refused? (k a) = none) :
    refused? (result >>= k) = refused? result := by
  rw [refused?_bind hk, Option.or_none]

theorem refused?_map (f : α → β) (result : Except Complaint α) :
    refused? (result.map f) = refused? result := by
  cases result <;> rfl

theorem firstOffence?_append (visits visits' : List Visit) :
    firstOffence? (visits ++ visits') = (firstOffence? visits).or (firstOffence? visits') :=
  List.findSome?_append

end Refused

section Visits

variable {form : Node} {text : List Char} {span : Span} {inner : List Node}

-- A node is visited behind those within it.
theorem firstOffence?_visits (earlier : List Node) (rule : Rule) :
    firstOffence? (Node.visits earlier (.mk rule text span inner)) =
      (firstOffence? (Node.innerVisits [] inner)).or
        (Visit.offence? ⟨earlier, .mk rule text span inner⟩) := by
  rw [Node.visits, firstOffence?_append]
  simp [firstOffence?]

theorem firstOffence?_single (earlier : List Node) (node : Node) :
    firstOffence? (Node.innerVisits earlier [node]) = firstOffence? (node.visits earlier) := by
  rw [Node.innerVisits, Node.innerVisits, List.append_nil]

theorem firstOffence?_ty (earlier : List Node) :
    firstOffence? (Node.visits earlier (.mk .ty text span [form])) =
      firstOffence? (form.visits []) := by
  rw [firstOffence?_visits, firstOffence?_single]
  exact Option.or_none

-- No word is refused that is not a number.
theorem firstOffence?_word {rule : Rule} (earlier : List Node)
    (hrule : rule = .identifier ∨ rule = .scalar) (rest : List Node) :
    firstOffence? (Node.innerVisits earlier (.mk rule text span [] :: rest)) =
      firstOffence? (Node.innerVisits (earlier ++ [.mk rule text span []]) rest) := by
  rw [Node.innerVisits, firstOffence?_append, firstOffence?_visits]
  rcases hrule with rfl | rfl <;> rfl

end Visits

theorem innerVisits_append (earlier nodes nodes' : List Node) :
    Node.innerVisits earlier (nodes ++ nodes') =
      Node.innerVisits earlier nodes ++ Node.innerVisits (earlier ++ nodes) nodes' := by
  induction nodes generalizing earlier with
  | nil => simp [Node.innerVisits]
  | cons node nodes ih => simp [Node.innerVisits, ih]

section Forms

variable {node : Node} {nodes : List Node} {span : Span}

-- Whatever node is for the tree, its first offence is what it is refused for.
def Refuses (tree : Tree) : Prop :=
  ∀ ⦃node⦄, Denotes node tree → ∀ earlier,
    firstOffence? (node.visits earlier) = refused? node.toTy

theorem refuses_list {trees : List Tree} (h : List.Forall₂ Denotes nodes trees)
    (htrees : ∀ tree ∈ trees, Refuses tree) (earlier : List Node) :
    firstOffence? (Node.innerVisits earlier nodes) = refused? (Node.listToTys nodes) := by
  induction h generalizing earlier with
  | nil => rfl
  | cons hfirst _ ih =>
      obtain ⟨hrefuses, htrees⟩ := List.forall_mem_cons.mp htrees
      rw [hfirst.listToTys_cons, Node.innerVisits, firstOffence?_append, hrefuses hfirst,
        ih htrees]
      refine (refused?_bind fun ty _ => ?_).symm
      exact refused?_bind_none fun _ _ => rfl

theorem refuses_closure {func : String} {captured : List Tree}
    (h : DenotesClosure node (func, captured)) (hcaptured : ∀ tree ∈ captured, Refuses tree)
    (earlier : List Node) :
    firstOffence? (node.visits earlier) = refused? (Node.partsToClosure node.span node.inner) := by
  cases h with
  | mk hnodes =>
      rw [firstOffence?_visits, firstOffence?_word _ (.inl rfl), refuses_list hnodes hcaptured,
        Node.inner, Node.partsToClosure, refused?_bind_none fun _ _ => rfl]
      exact Option.or_none

theorem refuses_members {members : List (String × List Tree)}
    (h : List.Forall₂ DenotesClosure nodes members)
    (hmembers : ∀ member ∈ members, ∀ tree ∈ member.2, Refuses tree) (earlier : List Node) :
    firstOffence? (Node.innerVisits earlier nodes) = refused? (Node.listToClosures nodes) := by
  induction h generalizing earlier with
  | nil => rfl
  | @cons node member nodes _ hfirst _ ih =>
      obtain ⟨hcaptured, hmembers⟩ := List.forall_mem_cons.mp hmembers
      rw [Node.innerVisits, firstOffence?_append, refuses_closure hfirst hcaptured, ih hmembers]
      obtain ⟨rule, text, span, inner⟩ := node
      refine (refused?_bind fun ty _ => ?_).symm
      exact refused?_bind_none fun _ _ => rfl

-- The type of a field is looked at before its name.
theorem refuses_field {part : Node} {tree : Tree} {text : List Char} {span nameSpan : Span}
    {name : String} (hpart : Denotes part tree) (htree : Refuses tree) (earlier : List Node) :
    firstOffence? (Node.visits earlier
        (.mk .field text span [.mk .identifier name.toList nameSpan [], part])) =
      (refused? part.toTy).or
        (if name.toList ∈ earlier.map Node.name then
          some ⟨"duplicate field `" ++ name ++ "`", span⟩
        else none) := by
  rw [firstOffence?_visits, firstOffence?_word _ (.inl rfl), firstOffence?_single, htree hpart]
  simp [Visit.offence?, Node.rule, Node.name, Node.inner, Node.text, Node.span]

-- No name has been seen before the first field.
theorem knownNames_nil (name : String) : (NameMap.contains ([] : NameMap Ty) name = true) ↔
    name.toList ∈ ([] : List Node).map Node.name := by
  simp [NameMap.contains_iff]

theorem refuses_fields {fields : List (Span × String × Tree)} {known : NameMap Ty}
    (h : List.Forall₂ DenotesField nodes fields) (hfields : ∀ field ∈ fields, Refuses field.2.2)
    {earlier : List Node}
    (hknown : ∀ name : String, known.contains name = true ↔
      name.toList ∈ earlier.map Node.name) :
    firstOffence? (Node.innerVisits earlier nodes) = refused? (Node.addFields known nodes) := by
  induction h generalizing known earlier with
  | nil => rfl
  | cons hfirst _ ih =>
      have htree := hfields _ (.head _)
      obtain ⟨hpart⟩ := hfirst
      rw [Node.innerVisits, firstOffence?_append, refuses_field hpart htree, Option.or_assoc,
        Node.addFields]
      refine (refused?_bind fun ty _ => ?_).symm
      dsimp only
      rw [Node.text, String.ofList_toList]
      simp only [hknown]
      split
      · rfl
      · rw [Option.none_or]
        refine (ih (fun field hmem => hfields field (.tail _ hmem)) fun key => ?_).symm
        rw [NameMap.contains_insert, hknown, List.map_append, List.mem_append]
        simp [Node.name, Node.inner, Node.text, String.toList_inj, or_comm]

theorem refuses_array {elem : Scalar} {digits : List Char} {rankSpan span : Span} :
    Refuses (.array elem digits rankSpan span) := by
  rintro _ ⟨hform⟩ earlier
  cases hform with
  | array hne hdigits =>
      rw [firstOffence?_ty, firstOffence?_visits, firstOffence?_word _ (.inr rfl),
        firstOffence?_single, firstOffence?_visits]
      simp only [Node.toTy, Node.firstToTy, Node.partsToArray, Node.toScalar, Node.text,
        String.ofList_toList, ofName?_name, readCount?_digits hne hdigits]
      simp only [Visit.offence?, Node.rule, Node.rank?, Node.inner, Node.count, Node.text,
        List.getElem?_cons_succ, List.getElem?_cons_zero, Option.map_some]
      obtain ⟨count, hcount⟩ : ∃ count, Nat.ofDigitChars 10 digits 0 = count := ⟨_, rfl⟩
      simp only [hcount]
      by_cases hlimit : rankLimit ≤ count
      · simp only [if_pos hlimit]
        rfl
      · simp only [if_neg hlimit]
        cases count with
        | zero => rfl
        | succ count => rfl

theorem refuses_slice {first second third : Tree} (hfirst : Refuses first)
    (hsecond : Refuses second) (hthird : Refuses third) :
    Refuses (.slice first second third) := by
  rintro _ ⟨hform⟩ earlier
  cases hform with
  | @slice a b c _ _ _ _ span hfirst' hsecond' hthird' =>
      have hnodes : List.Forall₂ Denotes [a, b, c] [first, second, third] :=
        .cons hfirst' (.cons hsecond' (.cons hthird' .nil))
      rw [firstOffence?_ty, firstOffence?_visits,
        refuses_list hnodes (by simp [hfirst, hsecond, hthird])]
      refine (refused?_bind fun tys htys => ?_).symm
      have hlength := length_of_listToTys hnodes htys
      obtain ⟨_, _, _, rfl⟩ := List.length_eq_three.mp hlength
      rfl

theorem refuses_closureSet {members : List (String × List Tree)}
    (hmembers : ∀ member ∈ members, ∀ tree ∈ member.2, Refuses tree) :
    Refuses (.closureSet members) := by
  rintro _ ⟨hform⟩ earlier
  cases hform with
  | closureSet hne hnodes =>
      rw [firstOffence?_ty, firstOffence?_visits, refuses_members hnodes hmembers]
      refine (refused?_bind fun closures hclosures => ?_).symm
      obtain ⟨first, rest, rfl⟩ :=
        List.exists_cons_of_ne_nil (listToClosures_ne_nil hne hclosures)
      rfl

theorem refuses_tuple {elems : List Tree} (helems : ∀ tree ∈ elems, Refuses tree) :
    Refuses (.tuple elems) := by
  rintro _ ⟨hform⟩ earlier
  cases hform with
  | tuple hnodes =>
      rw [firstOffence?_ty, firstOffence?_visits, refuses_list hnodes helems]
      simp only [Node.toTy, Node.firstToTy, refused?_map]
      exact Option.or_none

theorem refuses_struct {fields : List (Span × String × Tree)}
    (hfields : ∀ field ∈ fields, Refuses field.2.2) : Refuses (.struct fields) := by
  rintro _ ⟨hform⟩ earlier
  cases hform with
  | struct hnodes =>
      rw [firstOffence?_ty, firstOffence?_visits,
        refuses_fields hnodes hfields knownNames_nil]
      simp only [Node.toTy, Node.firstToTy, refused?_map]
      exact Option.or_none

theorem refuses_tree : ∀ tree : Tree, Refuses tree :=
  Tree.Hereditary.holds
    { unknown := by
        rintro _ ⟨⟨⟩⟩ earlier
        rfl
      none := by
        rintro _ ⟨⟨⟩⟩ earlier
        rfl
      scalar := by
        rintro kind _ ⟨⟨⟩⟩ earlier
        simp only [Node.toTy, Node.firstToTy, Node.toScalar, Node.text, String.ofList_toList,
          ofName?_name]
        rfl
      array := fun _ _ _ _ => refuses_array
      slice := refuses_slice
      closure := by
        rintro func captured hcaptured _ ⟨hform⟩ earlier
        cases hform with
        | closure hclosure =>
            have hrefused := refuses_closure hclosure hcaptured []
            cases hclosure
            rw [firstOffence?_ty, hrefused, Node.toTy, Node.firstToTy, Node.toTy,
              refused?_bind_none fun _ _ => rfl]
            rfl
      closureSet := refuses_closureSet
      tuple := refuses_tuple
      struct := refuses_struct }

end Forms

section Whole

variable {text : String} {root : Node}

theorem firstOffence?_root {nodes : List Node} {trees : List Tree} {span : Span}
    (hrule : root.rule = .signature ∨ root.rule = .signatureList)
    (hinner : root.inner = nodes ++ [.mk .endOfInput [] span []])
    (h : List.Forall₂ Denotes nodes trees) :
    firstOffence? (root.visits []) = refused? (Node.collectAll [root]) := by
  rw [Node.collectAll, List.flatMap_singleton, hinner, listToTys_end h,
    ← refuses_list h (fun tree _ => refuses_tree tree) []]
  obtain ⟨rule, text, rootSpan, inner⟩ := root
  rw [firstOffence?_visits, show inner = _ from hinner, innerVisits_append, firstOffence?_append]
  rcases hrule with hrule | hrule <;> cases hrule <;> exact Option.or_none.trans Option.or_none

-- The first offence of a text is what its nodes are refused for.

theorem firstOffence?_signature (h : Rule.signature.Parses text root) :
    firstOffence? (root.visits []) = refused? (Node.collectOne text [root]) := by
  obtain ⟨node, tree, span, hrule, hinner, hdenotes, -⟩ := readAll_of_parses_signature h
  have hnodes : List.Forall₂ Denotes [node] [tree] := .cons hdenotes .nil
  rw [firstOffence?_root (.inl hrule) hinner hnodes, Node.collectOne,
    refused?_bind_none fun tys htys => ?_]
  rw [Node.collectAll, List.flatMap_singleton, hinner] at htys
  have hlength := length_of_listToTys hnodes ((listToTys_end hnodes).symm.trans htys)
  obtain ⟨ty, rfl⟩ := List.length_eq_one_iff.mp hlength
  rfl

theorem firstOffence?_signatureList (h : Rule.signatureList.Parses text root) :
    firstOffence? (root.visits []) = refused? (Node.collectAll [root]) := by
  obtain ⟨nodes, trees, span, hrule, hinner, hdenotes, -⟩ := readAll_of_parses_signatureList h
  exact firstOffence?_root (.inr hrule) hinner hdenotes

end Whole

end RankPoly.Signature
