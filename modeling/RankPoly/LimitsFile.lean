import RankPoly.Session.Specialize
import RankPoly.Toml.Document

namespace RankPoly

-- The limits that a file gives.
structure LimitsFile where
  maxLoopIterations : Option Nat := none
  maxDepth : Option Nat := none
  deriving DecidableEq, Repr

namespace LimitsFile

def fileName : String := "rankjit.toml"

-- The value of a name, which may be missing but has to be a natural number.
def natural? (table : Toml.Table) (name : String) : Option (Option Nat) :=
  match table.find? name with
  | some (.integer value) => if 0 ≤ value then some (some value.toNat) else none
  | some _ => none
  | none => some none

-- The limits a text gives. Other names are passed over.
def parse? (text : String) : Option LimitsFile := do
  let table ← Toml.parse? text
  let maxLoopIterations ← natural? table "max_loop_iterations"
  let maxDepth ← natural? table "max_depth"
  return { maxLoopIterations, maxDepth }

-- With a limit of zero all requests would fail, so it does not count.
def orDefault (given : Option Nat) (default : Nat) : Nat :=
  match given with
  | none | some 0 => default
  | some limit => limit

def limits (file : LimitsFile) : Limits where
  maxLoopIterations := orDefault file.maxLoopIterations ({} : Limits).maxLoopIterations
  maxDepth := orDefault file.maxDepth ({} : Limits).maxDepth

end LimitsFile

end RankPoly
