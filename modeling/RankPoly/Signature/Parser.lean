import RankPoly.Signature.Error
import RankPoly.Signature.Grammar
import RankPoly.Ty.ClosureSet

namespace RankPoly

namespace Signature

-- Ranks are counted in 64 bits.
def rankLimit : Nat := Nat.pow 2 64

namespace Tree

mutual

-- The type that a signature denotes. Parts are checked before the whole, from
-- left to right.
def toTy : Tree → Except Error Ty
  | .unknown => .ok .unknown
  | .scalar kind => .ok (.scalar kind)
  | .array elem digits rankSpan span =>
    let rank := Nat.ofDigitChars 10 digits 0
    if rankLimit ≤ rank then .error (.rankOutOfRange rankSpan)
    else if rank = 0 then .error (.rankZero span)
    else .ok (.ofRank elem rank)
  | .tuple elems => (listToTys elems).map .tuple
  | .struct fields => (addFields [] fields).map .struct
  | .closure func captured => do
    let captured ← listToTys captured
    .ok (.closure ⟨func, captured⟩)
  | .closureSet members => do
    let closures ← membersToClosures members
    .ok (.closureSet (ClosureSet.union [] closures))
  | .slice start stop step => do
    let start ← toTy start
    let stop ← toTy stop
    let step ← toTy step
    .ok (.slice start stop step)
  | .none => .ok .none

def listToTys : List Tree → Except Error (List Ty)
  | [] => .ok []
  | tree :: rest => do
    let ty ← toTy tree
    let tys ← listToTys rest
    .ok (ty :: tys)

-- Adds fields to those known so far. The type of a field is looked at before
-- its name.
def addFields (known : NameMap Ty) :
    List (Span × String × Tree) → Except Error (NameMap Ty)
  | [] => .ok known
  | (span, name, tree) :: rest => do
    let ty ← toTy tree
    if known.contains name then .error (.duplicateField name span)
    else addFields (known.insert name ty) rest

def membersToClosures : List (String × List Tree) → Except Error (List Closure)
  | [] => .ok []
  | (func, captured) :: rest => do
    let captured ← listToTys captured
    let closures ← membersToClosures rest
    .ok (⟨func, captured⟩ :: closures)

end

end Tree

end Signature

open Signature in
-- Reads one type, such as `array<f64, 2>`.
def Ty.parse (text : String) : Except Signature.Error Ty :=
  match readAll signature text.toList with
  | .ok tree => tree.toTy
  | .error furthest => .error (.unexpected (.ofFurthest text.toList furthest))

open Signature in
-- Reads types with commas between them. A blank text holds none.
def Ty.parseList (text : String) : Except Signature.Error (List Ty) :=
  match readAll signatureList text.toList with
  | .ok trees => Tree.listToTys trees
  | .error furthest => .error (.unexpected (.ofFurthest text.toList furthest))

end RankPoly
