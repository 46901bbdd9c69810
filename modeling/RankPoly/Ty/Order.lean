import RankPoly.Ty.Basic

namespace RankPoly.Ty

-- Types of different form are ordered by form.
def form : Ty → Nat
  | .unknown => 0
  | .scalar _ => 1
  | .array .. => 2
  | .tuple _ => 3
  | .struct _ => 4
  | .closure _ => 5
  | .closureSet _ => 6
  | .slice .. => 7
  | .none => 8

mutual

-- The order of types: by form, then by parts from left to right. Lists are
-- ordered lexicographically, a proper beginning first.
protected def compare : Ty → Ty → Ordering
  | .scalar k, .scalar l => Ord.compare k.index l.index
  | .array k m, .array l n => (Ord.compare k.index l.index).then (Ord.compare m n)
  | .tuple xs, .tuple ys => compareList xs ys
  | .struct xs, .struct ys => compareFields xs ys
  | .closure c, .closure d => compareClosure c d
  | .closureSet cs, .closureSet ds => compareClosures cs ds
  | .slice x y z, .slice x' y' z' =>
    ((Ty.compare x x').then (Ty.compare y y')).then (Ty.compare z z')
  | lhs, rhs => Ord.compare lhs.form rhs.form
  termination_by structural lhs => lhs

def compareList : List Ty → List Ty → Ordering
  | [], [] => .eq
  | [], _ :: _ => .lt
  | _ :: _, [] => .gt
  | x :: xs, y :: ys => (Ty.compare x y).then (compareList xs ys)
  termination_by structural lhs => lhs

def compareFields : List (String × Ty) → List (String × Ty) → Ordering
  | [], [] => .eq
  | [], _ :: _ => .lt
  | _ :: _, [] => .gt
  | (m, x) :: xs, (n, y) :: ys =>
    ((Ord.compare m n).then (Ty.compare x y)).then (compareFields xs ys)
  termination_by structural lhs => lhs

def compareClosure : Closure → Closure → Ordering
  | ⟨f, xs⟩, ⟨g, ys⟩ => (Ord.compare f g).then (compareList xs ys)
  termination_by structural lhs => lhs

def compareClosures : List Closure → List Closure → Ordering
  | [], [] => .eq
  | [], _ :: _ => .lt
  | _ :: _, [] => .gt
  | c :: cs, d :: ds => (compareClosure c d).then (compareClosures cs ds)
  termination_by structural lhs => lhs

end

instance : Ord Ty := ⟨Ty.compare⟩

instance : Ord Closure := ⟨compareClosure⟩

end RankPoly.Ty
