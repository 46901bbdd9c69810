import RankPoly.Proofs.Signature.Printed
import RankPoly.Proofs.Signature.Soundness

namespace RankPoly

namespace Signature

section Lists

variable {α : Type} {P : Part α} {as : List α} {start stop : Cursor}

theorem Chain.forall_mem (h : Chain P as start stop) : ∀ a ∈ as, ∃ start stop, P a start stop := by
  induction h with
  | nil => exact nofun
  | cons _ ha _ ih => exact List.forall_mem_cons.mpr ⟨⟨_, _, ha⟩, ih⟩

theorem Separated.forall_mem (h : Separated P as start stop) :
    ∀ a ∈ as, ∃ start stop, P a start stop := by
  cases h with
  | mk ha has => exact List.forall_mem_cons.mpr ⟨⟨_, _, ha⟩, has.forall_mem⟩

theorem Items.forall_mem (h : Items P as start stop) : ∀ a ∈ as, ∃ start stop, P a start stop := by
  cases h with
  | none => exact nofun
  | some has => exact has.forall_mem

theorem EndedItems.forall_mem (h : EndedItems P as start stop) :
    ∀ a ∈ as, ∃ start stop, P a start stop := by
  cases h with
  | none => exact nofun
  | some has => exact has.forall_mem
  | ended has _ => exact has.forall_mem

end Lists

section Denoted

theorem forall₂_listToTys : ∀ {trees : List Tree} {tys : List Ty},
    Tree.listToTys trees = .ok tys → List.Forall₂ Tree.Is trees tys
  | [], _, h => by
      cases h
      exact .nil
  | first :: rest, tys, h => by
      unfold Tree.listToTys at h
      cases hfirst : first.toTy <;> rw [hfirst] at h
      · cases h
      cases hrest : Tree.listToTys rest <;> rw [hrest] at h <;> cases h
      exact .cons hfirst (forall₂_listToTys hrest)

theorem forall₂_membersToClosures : ∀ {members : List (String × List Tree)}
    {closures : List Closure}, Tree.membersToClosures members = .ok closures →
    List.Forall₂ ClosureIs members closures
  | [], _, h => by
      cases h
      exact .nil
  | (func, captured) :: rest, closures, h => by
      unfold Tree.membersToClosures at h
      cases hfirst : Tree.listToTys captured <;> rw [hfirst] at h
      · cases h
      cases hrest : Tree.membersToClosures rest <;> rw [hrest] at h <;> cases h
      exact .cons ⟨rfl, forall₂_listToTys hfirst⟩ (forall₂_membersToClosures hrest)

-- Fields are only added under names that are not bound, in the order of the names.
theorem addFields_forall {R : String × Ty → Prop} : ∀ {fields : List (Span × String × Tree)}
    {known result : NameMap Ty}, Tree.addFields known fields = .ok result → known.Sorted →
    (∀ field ∈ known, R field) →
    (∀ field ∈ fields, ∀ ty, field.2.2.Is ty → R (field.2.1, ty)) →
    result.Sorted ∧ ∀ field ∈ result, R field
  | [], _, _, h, hsorted, hknown, _ => by
      cases h
      exact ⟨hsorted, hknown⟩
  | (span, name, tree) :: rest, known, result, h, hsorted, hknown, hfields => by
      unfold Tree.addFields at h
      obtain ⟨hfirst, hrest⟩ := List.forall_mem_cons.mp hfields
      cases htree : tree.toTy <;> rw [htree] at h
      · cases h
      rename_i ty
      change (if known.contains name = true then _ else _) = _ at h
      split at h
      · cases h
      refine addFields_forall h (hsorted.insert name ty) (fun field hfield => ?_) hrest
      rcases NameMap.mem_of_mem_insert hfield with rfl | hfield
      · exact hfirst ty htree
      · exact hknown field hfield

end Denoted

theorem exists_of_forall₂ {α β : Type} {R : α → β → Prop} {as : List α} {bs : List β}
    (h : List.Forall₂ R as bs) : ∀ b ∈ bs, ∃ a ∈ as, R a b := by
  induction h with
  | nil => exact nofun
  | cons hfirst _ ih =>
      refine List.forall_mem_cons.mpr ⟨⟨_, List.mem_cons_self, hfirst⟩, fun b hb => ?_⟩
      obtain ⟨a, ha, hab⟩ := ih b hb
      exact ⟨a, List.mem_cons_of_mem _ ha, hab⟩

-- What the tree is read for, if it is for a type, has a spelling of its own.
def Lands (tree : Tree) : Prop :=
  ∀ ⦃ty start stop⦄, Spells tree start stop → tree.Is ty → ty.AllParts Ty.Printable

section Forms

theorem lands_array {elem : Scalar} {digits : List Char} {rankSpan span : Span} :
    Lands (.array elem digits rankSpan span) := by
  intro ty start stop _ his
  unfold Tree.Is Tree.toTy at his
  dsimp only at his
  split at his
  · cases his
  split at his
  · cases his
  rename_i hlimit hpos
  cases his
  rw [Ty.ofRank, if_neg hpos]
  exact Ty.allParts_array.mpr ⟨Nat.pos_of_ne_zero hpos, Nat.lt_of_not_le hlimit⟩

theorem lands_slice {first second third : Tree} (hfirst : Lands first) (hsecond : Lands second)
    (hthird : Lands third) : Lands (.slice first second third) := by
  intro ty start stop hspells his
  cases hspells with
  | slice _ _ hspells₁ _ hspells₂ _ hspells₃ =>
      unfold Tree.Is Tree.toTy at his
      cases his₁ : first.toTy <;> rw [his₁] at his
      · cases his
      cases his₂ : second.toTy <;> rw [his₂] at his
      · cases his
      cases his₃ : third.toTy <;> rw [his₃] at his <;> cases his
      exact Ty.allParts_slice.mpr
        ⟨trivial, hfirst hspells₁ his₁, hsecond hspells₂ his₂, hthird hspells₃ his₃⟩

-- Types that were read one by one.
theorem printable_of_forall₂ {trees : List Tree} {tys : List Ty}
    (hland : ∀ tree ∈ trees, Lands tree)
    (hspells : ∀ tree ∈ trees, ∃ start stop, Spells tree start stop)
    (hare : List.Forall₂ Tree.Is trees tys) : ∀ ty ∈ tys, ty.AllParts Ty.Printable := by
  intro ty hty
  obtain ⟨tree, htree, his⟩ := exists_of_forall₂ hare ty hty
  obtain ⟨start, stop, hspells⟩ := hspells tree htree
  exact hland tree htree hspells his

theorem lands_tuple {elems : List Tree} (hland : ∀ tree ∈ elems, Lands tree) :
    Lands (.tuple elems) := by
  intro ty start stop hspells his
  cases hspells with
  | tuple _ helems _ =>
      unfold Tree.Is Tree.toTy at his
      cases htys : Tree.listToTys elems <;> rw [htys] at his <;> cases his
      have hparts := printable_of_forall₂ hland helems.forall_mem (forall₂_listToTys htys)
      exact Ty.allParts_tuple.mpr ⟨trivial, hparts⟩

theorem lands_struct {fields : List (Span × String × Tree)}
    (hland : ∀ field ∈ fields, Lands field.2.2) : Lands (.struct fields) := by
  intro ty start stop hspells his
  cases hspells with
  | struct _ hfields _ =>
      unfold Tree.Is Tree.toTy at his
      cases hmap : Tree.addFields [] fields <;> rw [hmap] at his <;> cases his
      have hread : ∀ field ∈ fields, ∀ ty, field.2.2.Is ty →
          isIdentifier field.2.1 = true ∧ ty.AllParts Ty.Printable := by
        intro field hmem ty his
        obtain ⟨_, _, hfield⟩ := hfields.forall_mem field hmem
        cases hfield with
        | mk hname _ _ htree => exact ⟨hname, hland _ hmem htree his⟩
      obtain ⟨hsorted, hall⟩ := addFields_forall
        (R := fun field => isIdentifier field.1 = true ∧ field.2.AllParts Ty.Printable) hmap
        List.Pairwise.nil (List.forall_mem_nil _) hread
      exact Ty.allParts_struct.mpr ⟨⟨hsorted, fun field hfield => (hall field hfield).1⟩,
        fun field hfield => (hall field hfield).2⟩

theorem printable_of_closure {read : String × List Tree} {closure : Closure} {start stop : Cursor}
    (hland : ∀ tree ∈ read.2, Lands tree) (hspells : SpellsClosure read start stop)
    (his : ClosureIs read closure) :
    isIdentifier closure.func = true ∧ ∀ ty ∈ closure.captured, ty.AllParts Ty.Printable := by
  obtain ⟨hfunc, hcaptured⟩ := his
  cases hspells with
  | mk _ _ hname _ _ _ htrees _ =>
      rw [← hfunc]
      exact ⟨hname, printable_of_forall₂ hland htrees.forall_mem hcaptured⟩

theorem lands_closure {func : String} {captured : List Tree}
    (hland : ∀ tree ∈ captured, Lands tree) : Lands (.closure func captured) := by
  intro ty start stop hspells his
  cases hspells with
  | closure hclosure =>
      unfold Tree.Is Tree.toTy at his
      cases htys : Tree.listToTys captured <;> rw [htys] at his <;> cases his
      exact Ty.allParts_closure.mpr
        (printable_of_closure hland hclosure ⟨rfl, forall₂_listToTys htys⟩)

theorem lands_closureSet {members : List (String × List Tree)}
    (hland : ∀ member ∈ members, ∀ tree ∈ member.2, Lands tree) : Lands (.closureSet members) := by
  intro ty start stop hspells his
  cases hspells with
  | closureSet _ _ hmembers _ =>
      unfold Tree.Is Tree.toTy at his
      cases hclosures : Tree.membersToClosures members <;> rw [hclosures] at his <;> cases his
      rename_i closures
      have hare := forall₂_membersToClosures hclosures
      have hmem : ∀ closure, closure ∈ ClosureSet.union [] closures ↔ closure ∈ closures := by
        simp [ClosureSet.mem_union]
      have hread : ∀ closure ∈ ClosureSet.union [] closures,
          isIdentifier closure.func = true ∧
            ∀ ty ∈ closure.captured, ty.AllParts Ty.Printable := by
        intro closure hclosure
        obtain ⟨read, hmember, his⟩ := exists_of_forall₂ hare closure ((hmem closure).mp hclosure)
        obtain ⟨_, _, hspells⟩ := hmembers.forall_mem read hmember
        exact printable_of_closure (hland read hmember) hspells his
      have hne : ClosureSet.union [] closures ≠ [] := by
        obtain ⟨first, rest, rfl⟩ := List.exists_cons_of_ne_nil hmembers.ne_nil
        cases hare
        exact List.ne_nil_of_mem ((hmem _).mpr List.mem_cons_self)
      refine Ty.allParts_closureSet.mpr
        ⟨⟨hne, ClosureSet.Sorted.union List.Pairwise.nil, ?_⟩, ?_⟩
      · exact fun closure hclosure => (hread closure hclosure).1
      · exact fun closure hclosure => (hread closure hclosure).2

end Forms

mutual

-- Names are identifiers as they are read, ranks and repeated fields are checked, and the members
-- of a set are put into order.
theorem lands : ∀ tree : Tree, Lands tree
  | .unknown => by
      intro ty start stop _ his
      cases his
      exact Ty.allParts_unknown.mpr trivial
  | .scalar _ => by
      intro ty start stop _ his
      cases his
      exact Ty.allParts_scalar.mpr trivial
  | .array .. => lands_array
  | .tuple elems => lands_tuple (lands_list elems)
  | .struct fields => lands_struct (lands_fields fields)
  | .closure _ captured => lands_closure (lands_list captured)
  | .closureSet members => lands_closureSet (lands_members members)
  | .slice first second third => lands_slice (lands first) (lands second) (lands third)
  | .none => by
      intro ty start stop _ his
      cases his
      exact Ty.allParts_none.mpr trivial
  termination_by structural tree => tree

theorem lands_list : ∀ trees : List Tree, ∀ tree ∈ trees, Lands tree
  | [] => nofun
  | first :: rest => List.forall_mem_cons.mpr ⟨lands first, lands_list rest⟩
  termination_by structural trees => trees

theorem lands_fields : ∀ fields : List (Span × String × Tree),
    ∀ field ∈ fields, Lands field.2.2
  | [] => nofun
  | (_, _, first) :: rest => List.forall_mem_cons.mpr ⟨lands first, lands_fields rest⟩
  termination_by structural fields => fields

theorem lands_members : ∀ members : List (String × List Tree),
    ∀ member ∈ members, ∀ tree ∈ member.2, Lands tree
  | [] => nofun
  | (_, captured) :: rest => List.forall_mem_cons.mpr ⟨lands_list captured, lands_members rest⟩
  termination_by structural members => members

end

end Signature

open Signature

theorem Ty.parse_render {ty : Ty} (h : ty.AllParts Ty.Printable) : Ty.parse ty.render = .ok ty := by
  have hstart : (⟨ty.chars, 0⟩ : Cursor).rest = [] ++ (ty.chars ++ []) := by simp
  obtain ⟨tree, stop, hspells, hstop, his⟩ := shows_ty ty h blank_nil hstart
  have hend : stop.skip.rest = [] := by simp [Cursor.rest_skip, hstop]
  have hread := readAll_signature_iff.mpr ⟨stop, hspells, hend⟩
  unfold Ty.parse Ty.render
  rw [String.toList_ofList, hread]
  exact his

theorem Ty.printable_of_parse {text : String} {ty : Ty} (h : Ty.parse text = .ok ty) :
    ty.AllParts Ty.Printable := by
  unfold Ty.parse at h
  split at h
  · rename_i tree hread
    obtain ⟨stop, hspells, -⟩ := readAll_signature_iff.mp hread
    exact lands tree hspells h
  · cases h

-- Printing a type and reading it back gives the type, exactly for the types that can be read at
-- all. So a text that is read has a normal form, which is what its type is printed as.
theorem parse_inverts_render :
    (∀ ty : Ty, ty.AllParts Ty.Printable → Ty.parse ty.render = .ok ty) ∧
      (∀ (text : String) (ty : Ty), Ty.parse text = .ok ty → ty.AllParts Ty.Printable) ∧
      ∀ (text : String) (ty : Ty), Ty.parse text = .ok ty → Ty.parse ty.render = .ok ty :=
  ⟨fun _ h => Ty.parse_render h, fun _ _ h => Ty.printable_of_parse h,
    fun _ _ h => Ty.parse_render (Ty.printable_of_parse h)⟩

-- Names may start like words of the syntax, and a tuple may hold one type or none.
theorem nested_type_reads_back :
    Ty.parse (Ty.render (.closureSet [⟨"closure", []⟩,
        ⟨"none.f", [.tuple [.array .u8 12], .struct [("array", .tuple []), ("i64", .none)]]⟩])) =
      .ok (.closureSet [⟨"closure", []⟩,
        ⟨"none.f", [.tuple [.array .u8 12], .struct [("array", .tuple []), ("i64", .none)]]⟩]) :=
  parse_inverts_render.1 _ (by decide)

end RankPoly
