import RankPoly.Ty.Error

namespace RankPoly.Ty

-- The number of array dimensions.
def rank : Ty → Nat
  | .array _ rank => rank
  | _ => 0

-- What an array holds. Any other type is its own element type.
def elementType : Ty → Ty
  | .array elem _ => .scalar elem
  | ty => ty

-- Wraps a type in `count` more dimensions. Ranks are added without a limit. What happens
-- to a sum that does not fit the 64 bits that ranks are counted in is not modelled, although
-- signatures may name ranks up to that limit.
def increaseRank (ty : Ty) (count : Nat) : Except TyError Ty :=
  if count = 0 then .ok ty
  else
    match ty with
    | .scalar elem => .ok (ofRank elem count)
    | .array elem rank => .ok (ofRank elem (rank + count))
    | _ => .error (.raiseRank ty count)

-- Strips `count` outer dimensions. Scalars stay as they are, so that they
-- broadcast against arrays.
def lowerRank (ty : Ty) (count : Nat) : Except TyError Ty :=
  if count = 0 then .ok ty
  else
    match ty with
    | .scalar _ => .ok ty
    | .array elem rank =>
      if count ≤ rank then .ok (ofRank elem (rank - count)) else .error (.lowerRank ty count)
    | _ => .error (.lowerRank ty count)

-- Whether one index of this kind selects a position along a dimension.
def isPosition : Ty → Bool
  | .scalar kind => kind.isInteger || kind.isBool
  | _ => false

def isSlice : Ty → Bool
  | .slice .. => true
  | _ => false

-- The type of indexing into a value. A position drops a dimension, a slice
-- keeps it, a tuple of them does so for each of its parts, and an array of
-- integers puts its own dimensions in place of one. The sum has no limit here
-- either, as in `increaseRank`.
def indexType (value index : Ty) : Except TyError Ty :=
  match value with
  | .array elem rank =>
    match index with
    | .scalar _ =>
      if index.isPosition then .ok (ofRank elem (rank - 1)) else .error (.index value index)
    | .slice .. => .ok value
    | .tuple parts =>
      if parts.length ≤ rank ∧ parts.all (fun part => part.isPosition || part.isSlice) then
        .ok (ofRank elem (rank - (parts.filter isPosition).length))
      else .error (.index value index)
    | .array kind dims =>
      if kind.isInteger then .ok (ofRank elem (rank - 1 + dims)) else .error (.index value index)
    | _ => .error (.index value index)
  | _ => .error (.index value index)

-- The highest rank among the types, 0 if there are none.
def maxRank (tys : List Ty) : Nat :=
  tys.foldl (fun highest ty => max highest ty.rank) 0

def lowerRanks (tys : List Ty) (count : Nat) : Except TyError (List Ty) :=
  tys.mapM (lowerRank · count)

def elementTypes (tys : List Ty) : List Ty :=
  tys.map elementType

end RankPoly.Ty
