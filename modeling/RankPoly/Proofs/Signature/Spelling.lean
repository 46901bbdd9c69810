import RankPoly.Proofs.Signature.Reader

namespace RankPoly.Signature

def isName (c : Char) : Bool :=
  isWord c || c = '.'

-- A letter or an underscore, then also digits and dots.
def isIdentifier (name : String) : Bool :=
  match name.toList with
  | [] => false
  | first :: rest => (first.isAlpha || first = '_') && rest.all isName

section Lists

variable {α : Type}

-- Items that each stand behind a comma.
inductive Chain (P : Part α) : Part (List α) where
  | nil {start : Cursor} : Chain P [] start start
  | cons {a : α} {as : List α} {start next mid stop : Cursor} : Token [','] start next →
      P a next mid → Chain P as mid stop → Chain P (a :: as) start stop

-- One item or more, with commas between them.
inductive Separated (P : Part α) : Part (List α) where
  | mk {a : α} {as : List α} {start mid stop : Cursor} : P a start mid → Chain P as mid stop →
      Separated P (a :: as) start stop

theorem Separated.ne_nil {P : Part α} {as : List α} {start stop : Cursor}
    (h : Separated P as start stop) : as ≠ [] := by
  cases h
  nofun

-- No item, or some with commas between them.
inductive Items (P : Part α) : Part (List α) where
  | none {start : Cursor} : Items P [] start start
  | some {as : List α} {start stop : Cursor} : Separated P as start stop → Items P as start stop

-- The same, and perhaps a comma behind the last item.
inductive EndedItems (P : Part α) : Part (List α) where
  | none {start : Cursor} : EndedItems P [] start start
  | some {as : List α} {start stop : Cursor} : Separated P as start stop →
      EndedItems P as start stop
  | ended {as : List α} {start mid stop : Cursor} : Separated P as start mid →
      Token [','] mid stop → EndedItems P as start stop

end Lists

mutual

-- What the text between two places is written for. The alternatives stand in no order, and any
-- token may stand behind blanks.
inductive Spells : Part Tree where
  | unknown {start stop : Cursor} : Token ['?'] start stop → Spells .unknown start stop
  | none {start stop : Cursor} : Token "none".toList start stop → Spells .none start stop
  | scalar {kind : Scalar} {start stop : Cursor} : Token kind.name.toList start stop →
      Spells (.scalar kind) start stop
  | array {elem : Scalar} {digits : List Char} {start angle kind comma rank last stop : Cursor} :
      Token "array".toList start angle → Token ['<'] angle kind →
      Token elem.name.toList kind comma → Token [','] comma rank →
      digits ≠ [] → (∀ c ∈ digits, c.isDigit = true) → Token digits rank last →
      Token ['>'] last stop →
      Spells (.array elem digits ⟨rank.skip.offset, last.offset⟩ ⟨start.skip.offset, stop.offset⟩)
        start stop
  | slice {first second third : Tree} {start angle c₁ c₂ c₃ c₄ c₅ last stop : Cursor} :
      Token "slice".toList start angle → Token ['<'] angle c₁ → Spells first c₁ c₂ →
      Token [','] c₂ c₃ → Spells second c₃ c₄ → Token [','] c₄ c₅ → Spells third c₅ last →
      Token ['>'] last stop → Spells (.slice first second third) start stop
  | closure {func : String} {captured : List Tree} {start stop : Cursor} :
      SpellsClosure (func, captured) start stop → Spells (.closure func captured) start stop
  | closureSet {members : List (String × List Tree)} {start bracket first last stop : Cursor} :
      Token "one_of".toList start bracket → Token ['['] bracket first →
      Separated SpellsClosure members first last → Token [']'] last stop →
      Spells (.closureSet members) start stop
  | tuple {elems : List Tree} {start first last stop : Cursor} : Token ['('] start first →
      EndedItems Spells elems first last → Token [')'] last stop →
      Spells (.tuple elems) start stop
  | struct {fields : List (Span × String × Tree)} {start first last stop : Cursor} :
      Token ['\x7b'] start first → EndedItems SpellsField fields first last →
      Token ['\x7d'] last stop → Spells (.struct fields) start stop

inductive SpellsClosure : Part (String × List Tree) where
  | mk {func : String} {captured : List Tree} {start angle name c₁ c₂ first last stop : Cursor} :
      Token "closure".toList start angle → Token ['<'] angle name → isIdentifier func = true →
      Token func.toList name c₁ → Token ['>'] c₁ c₂ → Token ['('] c₂ first →
      Items Spells captured first last → Token [')'] last stop →
      SpellsClosure (func, captured) start stop

inductive SpellsField : Part (Span × String × Tree) where
  | mk {name : String} {tree : Tree} {start colon first stop : Cursor} :
      isIdentifier name = true → Token name.toList start colon → Token [':'] colon first →
      Spells tree first stop → SpellsField (⟨start.skip.offset, stop.offset⟩, name, tree) start stop

end

end RankPoly.Signature
