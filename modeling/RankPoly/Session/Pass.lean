import RankPoly.Session.Error
import RankPoly.Typed.Basic

namespace RankPoly

-- A change made to every new specialization. It may refuse one.
abbrev Pass := Specialization → Except SpecializeError Specialization

namespace Pass

def identity : Pass := fun spec => .ok spec

def refuse : Pass := fun spec =>
  .error (.unsupported (.pass spec.name))

-- Refuses all specializations of one function.
def refuseSource (source : String) : Pass := fun spec =>
  if spec.source = source then refuse spec else .ok spec

def tag (text : String) : Pass := fun spec =>
  .ok { spec with name := spec.name ++ text }

def returning (ty : Ty) : Pass := fun spec =>
  .ok { spec with returnType := ty }

-- Keeps only what callers see.
def strip : Pass := fun spec =>
  .ok { spec with body := [], env := [] }

end Pass

end RankPoly
