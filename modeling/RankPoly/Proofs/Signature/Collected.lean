import RankPoly.Proofs.Signature.Parsed

namespace RankPoly.Signature

-- What a signature is refused for, and where.
def Error.placed? (error : Error) : Option Complaint :=
  error.complaint?.map (⟨·, error.span⟩)

-- The same type, or the same complaint at the same place.
inductive Agrees {α : Type} : Except Complaint α → Except Error α → Prop where
  | ok (a : α) : Agrees (.ok a) (.ok a)
  | error {complaint : Complaint} {error : Error} : error.placed? = some complaint →
      Agrees (.error complaint) (.error error)

section Agrees

variable {α β : Type} {collected : Except Complaint α} {result : Except Error α}

theorem Agrees.bind {k : α → Except Complaint β} {k' : α → Except Error β}
    (h : Agrees collected result) (hk : ∀ a, collected = .ok a → Agrees (k a) (k' a)) :
    Agrees (collected >>= k) (result >>= k') := by
  cases h with
  | ok a => exact hk a rfl
  | error heq => exact .error heq

theorem Agrees.map (f : α → β) (h : Agrees collected result) :
    Agrees (collected.map f) (result.map f) := by
  cases h with
  | ok a => exact .ok (f a)
  | error heq => exact .error heq

end Agrees

theorem bind_eq_ok {α β : Type} {result : Except Complaint α} {k : α → Except Complaint β} {b : β}
    (h : result >>= k = .ok b) : ∃ a, result = .ok a ∧ k a = .ok b := by
  cases result with
  | ok a => exact ⟨a, rfl, h⟩
  | error complaint => cases h

section Numbers

variable {digits : List Char}

theorem readCount?_digits (hne : digits ≠ []) (hdigits : ∀ c ∈ digits, c.isDigit = true) :
    readCount? digits =
      if rankLimit ≤ Nat.ofDigitChars 10 digits 0 then none
      else some (Nat.ofDigitChars 10 digits 0) := by
  obtain ⟨first, rest, rfl⟩ := List.exists_cons_of_ne_nil hne
  have hsign : first ≠ '+' := by
    rintro rfl
    exact absurd (hdigits _ (.head _)) (by decide)
  have hall : (first :: rest).all Char.isDigit = true := List.all_eq_true.mpr hdigits
  unfold readCount?
  split
  · rename_i heq
    exact absurd (List.cons.inj heq).1 hsign
  · simp only [hall, List.isEmpty_cons, Bool.not_true, Bool.or_self, Bool.false_eq_true, if_false]

end Numbers

section Forms

variable {nodes : List Node} {span : Span}

theorem Denotes.listToTys_cons {node : Node} {tree : Tree} (h : Denotes node tree)
    (rest : List Node) :
    Node.listToTys (node :: rest) =
      node.toTy >>= fun ty => Node.listToTys rest >>= fun tys => .ok (ty :: tys) := by
  cases h
  rfl

-- Whatever node is for the tree, what is collected of it is the type of the tree.
def Collects (tree : Tree) : Prop :=
  ∀ ⦃node⦄, Denotes node tree → Agrees node.toTy tree.toTy

theorem agrees_list {trees : List Tree} (h : List.Forall₂ Denotes nodes trees)
    (htrees : ∀ tree ∈ trees, Collects tree) :
    Agrees (Node.listToTys nodes) (Tree.listToTys trees) := by
  induction h with
  | nil => exact .ok []
  | cons hfirst _ ih =>
      obtain ⟨hcollects, htrees⟩ := List.forall_mem_cons.mp htrees
      rw [hfirst.listToTys_cons]
      exact (hcollects hfirst).bind fun _ _ => (ih htrees).bind fun _ _ => .ok _

theorem agrees_closure {β : Type} {node : Node} {func : String} {captured : List Tree}
    {k : Closure → Except Complaint β} {k' : List Ty → Except Error β}
    (h : DenotesClosure node (func, captured)) (hcaptured : ∀ tree ∈ captured, Collects tree)
    (hk : ∀ tys, Agrees (k ⟨func, tys⟩) (k' tys)) :
    Agrees (Node.partsToClosure node.span node.inner >>= k) (Tree.listToTys captured >>= k') := by
  cases h with
  | mk hnodes =>
      rw [Node.inner, Node.partsToClosure, bind_assoc, Node.text, String.ofList_toList]
      exact (agrees_list hnodes hcaptured).bind fun tys _ => hk tys

theorem agrees_members {members : List (String × List Tree)}
    (h : List.Forall₂ DenotesClosure nodes members)
    (hmembers : ∀ member ∈ members, ∀ tree ∈ member.2, Collects tree) :
    Agrees (Node.listToClosures nodes) (Tree.membersToClosures members) := by
  induction h with
  | nil => exact .ok []
  | @cons node member _ _ hfirst _ ih =>
      obtain ⟨func, captured⟩ := member
      obtain ⟨hcaptured, hmembers⟩ := List.forall_mem_cons.mp hmembers
      obtain ⟨rule, text, span, inner⟩ := node
      exact agrees_closure hfirst hcaptured fun tys => (ih hmembers).bind fun _ _ => .ok _

theorem agrees_fields {fields : List (Span × String × Tree)} {known : NameMap Ty}
    (h : List.Forall₂ DenotesField nodes fields) (hfields : ∀ field ∈ fields, Collects field.2.2) :
    Agrees (Node.addFields known nodes) (Tree.addFields known fields) := by
  induction h generalizing known with
  | nil => exact .ok known
  | cons hfirst _ ih =>
      have hcollects := hfields _ (.head _)
      obtain ⟨hnode⟩ := hfirst
      refine (hcollects hnode).bind fun ty _ => ?_
      dsimp only
      rw [Node.text, String.ofList_toList]
      split
      · exact .error rfl
      · exact ih fun field hfield => hfields field (.tail _ hfield)

theorem collects_array {elem : Scalar} {digits : List Char} {rankSpan span : Span} :
    Collects (.array elem digits rankSpan span) := by
  rintro _ ⟨hform⟩
  cases hform with
  | array hne hdigits =>
      simp only [Node.toTy, Node.firstToTy, Node.partsToArray, Node.toScalar, Node.text,
        String.ofList_toList, ofName?_name, readCount?_digits hne hdigits]
      simp only [Tree.toTy]
      generalize Nat.ofDigitChars 10 digits 0 = count
      by_cases hlimit : rankLimit ≤ count
      · simp only [if_pos hlimit]
        exact .error rfl
      · simp only [if_neg hlimit]
        cases count with
        | zero => exact .error rfl
        | succ count => exact .ok _

theorem collects_slice {first second third : Tree} (hfirst : Collects first)
    (hsecond : Collects second) (hthird : Collects third) :
    Collects (.slice first second third) := by
  rintro _ ⟨hform⟩
  cases hform with
  | slice hfirst' hsecond' hthird' =>
      change Agrees (Node.listToTys _ >>= Node.partsToSlice _) _
      simp only [Denotes.listToTys_cons hfirst', Denotes.listToTys_cons hsecond',
        Denotes.listToTys_cons hthird', bind_assoc]
      exact (hfirst hfirst').bind fun _ _ => (hsecond hsecond').bind fun _ _ =>
        (hthird hthird').bind fun _ _ => .ok _

theorem collects_closure {func : String} {captured : List Tree}
    (hcaptured : ∀ tree ∈ captured, Collects tree) : Collects (.closure func captured) := by
  rintro _ ⟨hform⟩
  cases hform with
  | closure hclosure =>
      have h := agrees_closure (k := fun closure => .ok (Ty.closure closure)) hclosure hcaptured
        fun tys => .ok _
      cases hclosure
      exact h

theorem length_of_listToTys {trees : List Tree} {tys : List Ty}
    (h : List.Forall₂ Denotes nodes trees) (htys : Node.listToTys nodes = .ok tys) :
    tys.length = nodes.length := by
  induction h generalizing tys with
  | nil =>
      cases htys
      rfl
  | cons hfirst _ ih =>
      rw [hfirst.listToTys_cons] at htys
      obtain ⟨ty, -, htys⟩ := bind_eq_ok htys
      obtain ⟨tys, hrest, hall⟩ := bind_eq_ok htys
      cases hall
      rw [List.length_cons, List.length_cons, ih hrest]

theorem listToClosures_ne_nil {closures : List Closure} (hne : nodes ≠ [])
    (h : Node.listToClosures nodes = .ok closures) : closures ≠ [] := by
  obtain ⟨⟨rule, text, span, inner⟩, rest, rfl⟩ := List.exists_cons_of_ne_nil hne
  rw [Node.listToClosures] at h
  obtain ⟨closure, -, h⟩ := bind_eq_ok h
  obtain ⟨closures, -, h⟩ := bind_eq_ok h
  cases h
  nofun

theorem collects_closureSet {members : List (String × List Tree)}
    (hmembers : ∀ member ∈ members, ∀ tree ∈ member.2, Collects tree) :
    Collects (.closureSet members) := by
  rintro _ ⟨hform⟩
  cases hform with
  | closureSet hne hnodes =>
      refine (agrees_members hnodes hmembers).bind fun closures hclosures => ?_
      obtain ⟨first, rest, rfl⟩ :=
        List.exists_cons_of_ne_nil (listToClosures_ne_nil hne hclosures)
      exact .ok _

theorem collects_tuple {elems : List Tree} (helems : ∀ tree ∈ elems, Collects tree) :
    Collects (.tuple elems) := by
  rintro _ ⟨hform⟩
  cases hform with
  | tuple hnodes => exact (agrees_list hnodes helems).map _

theorem collects_struct {fields : List (Span × String × Tree)}
    (hfields : ∀ field ∈ fields, Collects field.2.2) : Collects (.struct fields) := by
  rintro _ ⟨hform⟩
  cases hform with
  | struct hnodes => exact (agrees_fields hnodes hfields).map _

theorem collects_tree : ∀ tree : Tree, Collects tree :=
  Tree.Hereditary.holds
    { unknown := by
        rintro _ ⟨⟨⟩⟩
        exact .ok _
      none := by
        rintro _ ⟨⟨⟩⟩
        exact .ok _
      scalar := by
        rintro kind _ ⟨⟨⟩⟩
        simp only [Node.toTy, Node.firstToTy, Node.toScalar, Node.text, String.ofList_toList,
          ofName?_name]
        exact .ok _
      array := fun _ _ _ _ => collects_array
      slice := collects_slice
      closure := collects_closure
      closureSet := collects_closureSet
      tuple := collects_tuple
      struct := collects_struct }

end Forms

section Whole

variable {text : String} {root : Node}

theorem listToTys_end {nodes : List Node} {trees : List Tree} {span : Span}
    (h : List.Forall₂ Denotes nodes trees) :
    Node.listToTys (nodes ++ [.mk .endOfInput [] span []]) = Node.listToTys nodes := by
  induction h with
  | nil => rfl
  | cons hfirst _ ih => rw [List.cons_append, hfirst.listToTys_cons, hfirst.listToTys_cons, ih]

-- What is collected of the nodes is what the parsers give.

theorem agrees_collectOne (h : Rule.signature.Parses text root) :
    Agrees (Node.collectOne text [root]) (Ty.parse text) := by
  obtain ⟨node, tree, span, -, hinner, hdenotes, hread⟩ := readAll_of_parses_signature h
  have hnodes : List.Forall₂ Denotes [node] [tree] := .cons hdenotes .nil
  have hlist : Node.listToTys [node, .mk .endOfInput [] span []] = Node.listToTys [node] :=
    listToTys_end hnodes
  have htys : Node.collectAll [root] = node.toTy >>= fun ty => .ok [ty] := by
    rw [Node.collectAll, List.flatMap_singleton, hinner, hlist, hdenotes.listToTys_cons]
    rfl
  unfold Node.collectOne Ty.parse
  rw [hread, htys, bind_assoc]
  change Agrees (node.toTy >>= pure) tree.toTy
  rw [bind_pure]
  exact collects_tree tree hdenotes

theorem agrees_collectAll (h : Rule.signatureList.Parses text root) :
    Agrees (Node.collectAll [root]) (Ty.parseList text) := by
  obtain ⟨nodes, trees, span, -, hinner, hdenotes, hread⟩ := readAll_of_parses_signatureList h
  unfold Node.collectAll Ty.parseList
  rw [hread, List.flatMap_singleton, hinner, listToTys_end hdenotes]
  exact agrees_list hdenotes fun tree _ => collects_tree tree

end Whole

end RankPoly.Signature
