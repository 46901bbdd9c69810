import RankPoly.Proofs.Signature.Layout

namespace RankPoly.Signature

-- What a rule matched: its part of the text, where that stands, and what other rules matched in
-- it. Nothing says that the parts are those that the rule asks for.
inductive Node where
  | mk (rule : Rule) (text : List Char) (span : Span) (inner : List Node)

namespace Node

def rule : Node → Rule
  | mk rule _ _ _ => rule

def text : Node → List Char
  | mk _ text _ _ => text

def span : Node → Span
  | mk _ _ span _ => span

def inner : Node → List Node
  | mk _ _ _ inner => inner

mutual

-- What each node has if those in it have it.
@[elab_as_elim]
theorem induction {P : Node → Prop} (h : ∀ node : Node, (∀ part ∈ node.inner, P part) → P node) :
    ∀ node : Node, P node
  | mk rule text span inner => h (mk rule text span inner) (induction_inner h inner)
  termination_by structural node => node

theorem induction_inner {P : Node → Prop}
    (h : ∀ node : Node, (∀ part ∈ node.inner, P part) → P node) :
    ∀ nodes : List Node, ∀ node ∈ nodes, P node
  | [] => nofun
  | first :: rest => List.forall_mem_cons.mpr ⟨induction h first, induction_inner h rest⟩
  termination_by structural nodes => nodes

end

end Node

-- What is wrong with a signature, and where.
structure Complaint where
  text : String
  span : Span
  deriving DecidableEq

-- A number as it is written, which may have a sign, if it can be counted.
def readCount? (text : List Char) : Option Nat :=
  let digits :=
    match text with
    | '+' :: rest => rest
    | _ => text
  if digits.isEmpty || !digits.all Char.isDigit then none
  else
    let count := Nat.ofDigitChars 10 digits 0
    if rankLimit ≤ count then none else some count

def complain {α : Type} (text : String) (span : Span) : Except Complaint α :=
  .error ⟨text, span⟩

namespace Node

-- The collection of types from nodes of any shape. Each check that a node is as it should be has
-- a complaint of its own.

def toScalar (node : Node) : Except Complaint Scalar :=
  match Scalar.ofName? (String.ofList node.text) with
  | some kind => .ok kind
  | none => complain ("unknown scalar `" ++ String.ofList node.text ++ "`") node.span

def partsToArray (span : Span) : List Node → Except Complaint Ty
  | elem :: rank :: _ => do
    let elem ← elem.toScalar
    match readCount? rank.text with
    | none => complain "array rank out of range" rank.span
    | some 0 => complain "array rank must be at least 1" span
    | some count => .ok (.ofRank elem count)
  | _ => complain "malformed array type" span

def partsToSlice (span : Span) : List Ty → Except Complaint Ty
  | [start, stop, step] => .ok (.slice start stop step)
  | _ => complain "slice takes three types" span

def partsToSet (span : Span) (members : List Closure) : Except Complaint Ty :=
  match ClosureSet.ofList? members with
  | some members => .ok (.closureSet members)
  | none => complain "empty closure set" span

mutual

def toTy : Node → Except Complaint Ty
  | mk .ty _ span inner => firstToTy span inner
  | mk .scalar text span inner => (toScalar (mk .scalar text span inner)).map .scalar
  | mk .none _ _ _ => .ok .none
  | mk .unknown _ _ _ => .ok .unknown
  | mk .array _ span inner => partsToArray span inner
  | mk .slice _ span inner => do
    let parts ← listToTys inner
    partsToSlice span parts
  | mk .closure _ span inner => do
    let closure ← partsToClosure span inner
    .ok (.closure closure)
  | mk .closureSet _ span inner => do
    let members ← listToClosures inner
    partsToSet span members
  | mk .tuple _ _ inner => (listToTys inner).map .tuple
  | mk .struct _ _ inner => (addFields [] inner).map .struct
  | mk rule _ span _ => complain ("unexpected " ++ rule.name) span

def firstToTy (span : Span) : List Node → Except Complaint Ty
  | [] => complain "empty type" span
  | first :: _ => toTy first

-- The end of the text is passed over.
def listToTys : List Node → Except Complaint (List Ty)
  | [] => .ok []
  | mk .endOfInput _ _ _ :: rest => listToTys rest
  | first :: rest => do
    let ty ← toTy first
    let tys ← listToTys rest
    .ok (ty :: tys)

def partsToClosure (span : Span) : List Node → Except Complaint Closure
  | [] => complain "closure without a function" span
  | func :: captured => do
    let captured ← listToTys captured
    .ok ⟨String.ofList func.text, captured⟩

-- What is collected as a closure is not looked at for its rule.
def listToClosures : List Node → Except Complaint (List Closure)
  | [] => .ok []
  | mk _ _ span inner :: rest => do
    let closure ← partsToClosure span inner
    let closures ← listToClosures rest
    .ok (closure :: closures)

def addFields (known : NameMap Ty) : List Node → Except Complaint (NameMap Ty)
  | [] => .ok known
  | mk _ _ span (name :: tree :: _) :: rest => do
    let ty ← toTy tree
    let name := String.ofList name.text
    if known.contains name then complain ("duplicate field `" ++ name ++ "`") span
    else addFields (known.insert name ty) rest
  | mk _ _ span _ :: _ => complain "malformed field" span

end

-- All types in what was read from a text.
def collectAll (pairs : List Node) : Except Complaint (List Ty) :=
  listToTys (pairs.flatMap inner)

-- The first one of them.
def collectOne (text : String) (pairs : List Node) : Except Complaint Ty := do
  let tys ← collectAll pairs
  match tys with
  | ty :: _ => .ok ty
  | [] => complain "expected a type" ⟨0, text.utf8ByteSize⟩

end Node

end RankPoly.Signature
