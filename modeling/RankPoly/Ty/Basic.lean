import RankPoly.NameMap
import RankPoly.Scalar

namespace RankPoly

mutual

-- What is known about a value before it is computed. `unknown` is the bottom
-- of the lattice, all other types are concrete.
inductive Ty where
  | unknown
  | scalar (kind : Scalar)
  | array (elem : Scalar) (rank : Nat)
  | tuple (elems : List Ty)
  | struct (fields : List (String × Ty))
  | closure (target : Closure)
  | closureSet (members : List Closure)
  | slice (start stop step : Ty)
  | none

-- A function with the types of its leading arguments that are already bound.
structure Closure where
  func : String
  captured : List Ty

end

namespace Ty

mutual

def beq : Ty → Ty → Bool
  | .unknown, .unknown => true
  | .scalar k, .scalar l => k = l
  | .array k m, .array l n => k = l && m = n
  | .tuple xs, .tuple ys => beqList xs ys
  | .struct xs, .struct ys => beqFields xs ys
  | .closure c, .closure d => beqClosure c d
  | .closureSet cs, .closureSet ds => beqClosures cs ds
  | .slice x y z, .slice x' y' z' => beq x x' && beq y y' && beq z z'
  | .none, .none => true
  | _, _ => false
  termination_by structural lhs => lhs

def beqList : List Ty → List Ty → Bool
  | [], [] => true
  | x :: xs, y :: ys => beq x y && beqList xs ys
  | _, _ => false
  termination_by structural lhs => lhs

def beqFields : List (String × Ty) → List (String × Ty) → Bool
  | [], [] => true
  | (m, x) :: xs, (n, y) :: ys => m = n && beq x y && beqFields xs ys
  | _, _ => false
  termination_by structural lhs => lhs

def beqClosure : Closure → Closure → Bool
  | ⟨f, xs⟩, ⟨g, ys⟩ => f = g && beqList xs ys
  termination_by structural lhs => lhs

def beqClosures : List Closure → List Closure → Bool
  | [], [] => true
  | c :: cs, d :: ds => beqClosure c d && beqClosures cs ds
  | _, _ => false
  termination_by structural lhs => lhs

end

mutual

theorem beq_iff : ∀ lhs rhs : Ty, beq lhs rhs = true ↔ lhs = rhs
  | .unknown, rhs => by cases rhs <;> simp [beq]
  | .scalar k, rhs => by cases rhs <;> simp [beq]
  | .array k m, rhs => by cases rhs <;> simp [beq]
  | .tuple xs, rhs => by cases rhs <;> simp [beq, beqList_iff xs]
  | .struct xs, rhs => by cases rhs <;> simp [beq, beqFields_iff xs]
  | .closure c, rhs => by cases rhs <;> simp [beq, beqClosure_iff c]
  | .closureSet cs, rhs => by cases rhs <;> simp [beq, beqClosures_iff cs]
  | .slice x y z, rhs => by
    cases rhs <;> simp [beq, beq_iff x, beq_iff y, beq_iff z, and_assoc]
  | .none, rhs => by cases rhs <;> simp [beq]
  termination_by structural lhs => lhs

theorem beqList_iff : ∀ lhs rhs : List Ty, beqList lhs rhs = true ↔ lhs = rhs
  | [], rhs => by cases rhs <;> simp [beqList]
  | x :: xs, rhs => by cases rhs <;> simp [beqList, beq_iff x, beqList_iff xs]
  termination_by structural lhs => lhs

theorem beqFields_iff :
    ∀ lhs rhs : List (String × Ty), beqFields lhs rhs = true ↔ lhs = rhs
  | [], rhs => by cases rhs <;> simp [beqFields]
  | (m, x) :: xs, rhs => by
    cases rhs with
    | nil => simp [beqFields]
    | cons entry ys =>
      obtain ⟨n, y⟩ := entry
      simp [beqFields, beq_iff x, beqFields_iff xs]
  termination_by structural lhs => lhs

theorem beqClosure_iff : ∀ lhs rhs : Closure, beqClosure lhs rhs = true ↔ lhs = rhs
  | ⟨f, xs⟩, ⟨g, ys⟩ => by simp [beqClosure, beqList_iff xs]
  termination_by structural lhs => lhs

theorem beqClosures_iff :
    ∀ lhs rhs : List Closure, beqClosures lhs rhs = true ↔ lhs = rhs
  | [], rhs => by cases rhs <;> simp [beqClosures]
  | c :: cs, rhs => by
    cases rhs <;> simp [beqClosures, beqClosure_iff c, beqClosures_iff cs]
  termination_by structural lhs => lhs

end

instance : DecidableEq Ty := fun lhs rhs =>
  decidable_of_iff (beq lhs rhs = true) (beq_iff lhs rhs)

instance : DecidableEq Closure := fun lhs rhs =>
  decidable_of_iff (beqClosure lhs rhs = true) (beqClosure_iff lhs rhs)

-- `elem` raised to `rank`. Rank 0 is the scalar itself.
def ofRank (elem : Scalar) (rank : Nat) : Ty :=
  if rank = 0 then .scalar elem else .array elem rank

theorem ofRank_of_pos (elem : Scalar) {rank : Nat} (hrank : 0 < rank) :
    ofRank elem rank = .array elem rank :=
  if_neg (Nat.pos_iff_ne_zero.mp hrank)

def bool : Ty := .scalar .bool
def i64 : Ty := .scalar .i64
def f64 : Ty := .scalar .f64

def isUnknown : Ty → Bool
  | .unknown => true
  | _ => false

def isScalar : Ty → Bool
  | .scalar _ => true
  | _ => false

def isArray : Ty → Bool
  | .array .. => true
  | _ => false

def isCallable : Ty → Bool
  | .closure _ | .closureSet _ => true
  | _ => false

def scalar? : Ty → Option Scalar
  | .scalar kind => some kind
  | _ => Option.none

-- The type of a field, if the type is a struct that has it.
def field? (name : String) : Ty → Option Ty
  | .struct fields => NameMap.find? name fields
  | _ => Option.none

-- The closures a value of a callable type may stand for.
def members? : Ty → Option (List Closure)
  | .closure target => some [target]
  | .closureSet members => some members
  | _ => Option.none

end Ty

end RankPoly
