namespace RankPoly.Signature

-- What the syntax of signatures is made of, in the order of its definition.
inductive Rule where
  | endOfInput
  | identifier
  | digits
  | scalar
  | none
  | unknown
  | array
  | slice
  | closure
  | closureSet
  | tuple
  | field
  | struct
  | ty
  | signature
  | signatureList
  deriving DecidableEq, Repr

namespace Rule

def all : List Rule :=
  [.endOfInput, .identifier, .digits, .scalar, .none, .unknown, .array, .slice, .closure,
    .closureSet, .tuple, .field, .struct, .ty, .signature, .signatureList]

def name : Rule → String
  | .endOfInput => "EOI"
  | .identifier => "ident"
  | .digits => "int_lit"
  | .scalar => "scalar"
  | .none => "none_ty"
  | .unknown => "unknown"
  | .array => "array_ty"
  | .slice => "slice_ty"
  | .closure => "closure_ty"
  | .closureSet => "closure_set"
  | .tuple => "tuple_ty"
  | .field => "field"
  | .struct => "struct_ty"
  | .ty => "ty"
  | .signature => "signature"
  | .signatureList => "signature_list"

end Rule

-- The furthest place where a rule failed, and the rules that failed there.
structure Furthest where
  offset : Nat := 0
  rules : List Rule := []

namespace Furthest

-- The number of rules known to fail at a place.
def countAt (furthest : Furthest) (offset : Nat) : Nat :=
  if offset = furthest.offset then furthest.rules.length else 0

-- A rule failed that was entered at `offset`, when `before` failures were
-- known there. If exactly one failure was added since, it says more than the
-- rule itself. Otherwise the rule takes the place of those added since.
def record (furthest : Furthest) (rule : Rule) (offset before : Nat) : Furthest :=
  if furthest.countAt offset = before + 1 then furthest
  else if offset = furthest.offset then
    { furthest with rules := furthest.rules.take before ++ [rule] }
  else if furthest.offset < offset then { offset, rules := [rule] }
  else furthest

-- The rules that failed there, each once and in the order of their definition.
def expected (furthest : Furthest) : List Rule :=
  Rule.all.filter furthest.rules.contains

end Furthest

end RankPoly.Signature
