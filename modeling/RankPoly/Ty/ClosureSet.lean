import RankPoly.Ty.Order

namespace RankPoly

-- The closures a call may dispatch to, in increasing order.
abbrev ClosureSet := List Closure

namespace ClosureSet

def singleton (closure : Closure) : ClosureSet := [closure]

-- Puts a closure at its place. The flag says whether it was absent before.
def insert (closure : Closure) : ClosureSet → Bool × ClosureSet
  | [] => (true, [closure])
  | member :: rest =>
    match compare closure member with
    | .lt => (true, closure :: member :: rest)
    | .eq => (false, member :: rest)
    | .gt =>
      let (absent, larger) := insert closure rest
      (absent, member :: larger)

def contains (closure : Closure) : ClosureSet → Bool
  | [] => false
  | member :: rest =>
    match compare closure member with
    | .lt => false
    | .eq => true
    | .gt => contains closure rest

def union (lhs rhs : ClosureSet) : ClosureSet :=
  rhs.foldl (fun set closure => (insert closure set).2) lhs

-- A set is never empty, so an empty list has none.
def ofList? (closures : List Closure) : Option ClosureSet :=
  match closures with
  | [] => none
  | first :: rest => some (union (singleton first) rest)

end ClosureSet

end RankPoly
