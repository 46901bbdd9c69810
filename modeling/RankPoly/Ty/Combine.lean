import RankPoly.Ty.ClosureSet
import RankPoly.Ty.Error

namespace RankPoly.Ty

mutual

-- The least type above both, where `join` settles two scalar kinds that
-- differ. Closures that differ widen into a set. The pair reported in a
-- conflict is the innermost one that does not fit.
def combineWith (join : Scalar.Policy) (lhs rhs : Ty) : Except TyError Ty :=
  if lhs = rhs then .ok lhs
  else
    match lhs, rhs with
    | .unknown, rhs => .ok rhs
    | lhs, .unknown => .ok lhs
    | .scalar k, .scalar l => .ok (.scalar (join k l))
    | .array k m, .array l n =>
      if m = n then .ok (ofRank (join k l) m)
      else .error (.conflict (.array k m) (.array l n))
    | .tuple xs, .tuple ys =>
      if xs.length = ys.length then (combineLists join xs ys).map .tuple
      else .error (.conflict (.tuple xs) (.tuple ys))
    | .struct xs, .struct ys =>
      if NameMap.keys xs = NameMap.keys ys then (combineFields join xs ys).map .struct
      else .error (.conflict (.struct xs) (.struct ys))
    | .slice start stop step, .slice start' stop' step' => do
      let start ← combineWith join start start'
      let stop ← combineWith join stop stop'
      let step ← combineWith join step step'
      .ok (.slice start stop step)
    | .closure c, .closure d => .ok (.closureSet (ClosureSet.insert d (ClosureSet.singleton c)).2)
    | .closure c, .closureSet ds => .ok (.closureSet (ClosureSet.insert c ds).2)
    | .closureSet cs, .closure d => .ok (.closureSet (ClosureSet.insert d cs).2)
    | .closureSet cs, .closureSet ds => .ok (.closureSet (ClosureSet.union cs ds))
    | lhs, rhs => .error (.conflict lhs rhs)
  termination_by structural lhs

def combineLists (join : Scalar.Policy) : List Ty → List Ty → Except TyError (List Ty)
  | x :: xs, y :: ys => do
    let z ← combineWith join x y
    let zs ← combineLists join xs ys
    .ok (z :: zs)
  | _, _ => .ok []
  termination_by structural lhs => lhs

-- The fields of two structs with the same names.
def combineFields (join : Scalar.Policy) :
    List (String × Ty) → List (String × Ty) → Except TyError (List (String × Ty))
  | (name, x) :: xs, (_, y) :: ys => do
    let z ← combineWith join x y
    let zs ← combineFields join xs ys
    .ok ((name, z) :: zs)
  | _, _ => .ok []
  termination_by structural lhs => lhs

end

-- The least type above both under numeric promotion.
def combine (lhs rhs : Ty) : Except TyError Ty :=
  combineWith Scalar.promote lhs rhs

-- The types joined from left to right, starting from `unknown`.
def combineAll (tys : List Ty) : Except TyError Ty :=
  tys.foldlM combine .unknown

end RankPoly.Ty
