import RankPoly.Proofs.Ty.Symmetry

namespace RankPoly

open Ty (Below Proper WidensTo)

variable {a b c : Ty}

theorem Ty.WidensTo.below (h : a.WidensTo b) : a.Below b :=
  (Ty.below_combine h).1

theorem Ty.WidensTo.antisymm (ha : a.AllParts Proper) (hb : b.AllParts Proper) (h : a.WidensTo b)
    (h' : b.WidensTo a) : a = b := by
  have ha := ha.imp fun _ => Proper.ordered
  have hb := hb.imp fun _ => Proper.ordered
  exact Below.antisymm h.below h'.below ha hb

-- Joins are not associative, but the order of promotions is transitive, and so is the one
-- that it makes on types.
theorem Ty.WidensTo.trans (ha : a.AllParts Proper) (hc : c.AllParts Proper) (h : a.WidensTo b)
    (h' : b.WidensTo c) : a.WidensTo c := by
  have hbelow : a.Below c := h.below.trans h'.below
  exact Ty.widensTo_of_below a c hbelow ha hc

-- One type is joined into another without a change along a partial order, in which what is
-- unknown comes first. A join is above both types that are joined, and is itself a type
-- with dimensions for its arrays and members for its sets.
theorem widensTo_partialOrder :
    (∀ a : Ty, a.AllParts Proper → a.WidensTo a) ∧
      (∀ a b : Ty, a.AllParts Proper → b.AllParts Proper → a.WidensTo b → b.WidensTo a → a = b) ∧
      (∀ a b c : Ty, a.AllParts Proper → b.AllParts Proper → c.AllParts Proper →
        a.WidensTo b → b.WidensTo c → a.WidensTo c) ∧
      (∀ a : Ty, a.AllParts Proper → Ty.unknown.WidensTo a) ∧
      ∀ a b ty : Ty, a.AllParts Proper → b.AllParts Proper → a.combine b = .ok ty →
        ty.AllParts Proper ∧ a.WidensTo ty ∧ b.WidensTo ty := by
  refine ⟨fun a _ => Ty.combine_self a, fun a b ha hb => Ty.WidensTo.antisymm ha hb,
    fun a b c ha _ hc => Ty.WidensTo.trans ha hc, fun a _ => Ty.combine_unknown_left a, ?_⟩
  intro a b ty ha hb hjoin
  have hty : ty.AllParts Proper := Ty.stable_proper.combine hjoin ha hb
  obtain ⟨hleft, hright⟩ := Ty.below_combine hjoin
  exact ⟨hty, Ty.widensTo_of_below a ty hleft ha hty, Ty.widensTo_of_below b ty hright hb hty⟩

-- A closure widens to a set, and the set to a larger one, while a number and an array of
-- numbers are promoted twice.
theorem closure_widens_twice :
    let a : Ty := .tuple [.closure ⟨"g", []⟩, .scalar .u8, .unknown]
    let b : Ty := .tuple [.closureSet [⟨"f", []⟩, ⟨"g", []⟩], .scalar .i16, .array .bool 2]
    let c : Ty := .tuple
      [.closureSet [⟨"f", []⟩, ⟨"g", []⟩, ⟨"h", [.none]⟩], .scalar .f32, .array .u64 2]
    let d : Ty := .tuple [.closure ⟨"h", [.none]⟩, .scalar .f32, .array .u64 2]
    a.WidensTo a ∧ a ≠ b ∧ ¬b.WidensTo a ∧ a.WidensTo c ∧ Ty.unknown.WidensTo a ∧
      b.combine d = .ok c ∧ c.AllParts Proper ∧ b.WidensTo c ∧ d.WidensTo c := by
  intro a b c d
  have ha : a.AllParts Proper := by decide
  have hb : b.AllParts Proper := by decide
  have hc : c.AllParts Proper := by decide
  have hd : d.AllParts Proper := by decide
  have hab : a.WidensTo b := by decide +kernel
  have hbc : b.WidensTo c := by decide +kernel
  have hjoin : b.combine d = .ok c := by decide +kernel
  have hne : a ≠ b := by decide
  obtain ⟨hrefl, hanti, htrans, hbottom, hbound⟩ := widensTo_partialOrder
  exact ⟨hrefl a ha, hne, fun hba => hne (hanti a b ha hb hab hba), htrans a b c ha hb hc hab hbc,
    hbottom a ha, hjoin, hbound b d c hb hd hjoin⟩

end RankPoly
