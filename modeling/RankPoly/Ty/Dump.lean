import RankPoly.Dump
import RankPoly.Ty.Basic

namespace RankPoly

def Scalar.dump (kind : Scalar) : String :=
  kind.name.capitalize

def Scalar.Category.dump : Scalar.Category → String
  | .bool => "Bool"
  | .signed => "Signed"
  | .unsigned => "Unsigned"
  | .float => "Float"

namespace Ty

mutual

def dump : Ty → String
  | .unknown => "Unknown"
  | .scalar kind => kind.dump
  | .array elem rank => Dump.form "Array" [elem.dump, toString rank]
  | .tuple elems => Dump.form "Tuple" [Dump.list (dumpList elems)]
  | .struct fields => Dump.form "Struct" [Dump.set (dumpFields fields)]
  | .closure target => dumpClosure target
  | .closureSet members => Dump.form "ClosureSet" [Dump.set (dumpClosures members)]
  | .slice start stop step => Dump.form "Slice" [dump start, dump stop, dump step]
  | .none => "None"

def dumpList : List Ty → List String
  | [] => []
  | ty :: rest => dump ty :: dumpList rest

def dumpFields : List (String × Ty) → List String
  | [] => []
  | (name, ty) :: rest => (Text.quote name ++ ": " ++ dump ty) :: dumpFields rest

def dumpClosure : Closure → String
  | ⟨func, captured⟩ => Dump.form "Closure" [func, Dump.list (dumpList captured)]

def dumpClosures : List Closure → List String
  | [] => []
  | member :: rest => dumpClosure member :: dumpClosures rest

end

end Ty

end RankPoly
