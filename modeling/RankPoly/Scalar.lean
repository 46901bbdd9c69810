namespace RankPoly

-- The kinds of number an array may hold, narrowest first within a category.
inductive Scalar where
  | bool
  | i8
  | i16
  | i32
  | i64
  | u8
  | u16
  | u32
  | u64
  | f32
  | f64
  deriving DecidableEq, Repr

namespace Scalar

inductive Category where
  | bool
  | signed
  | unsigned
  | float
  deriving DecidableEq, Repr

def all : List Scalar :=
  [.bool, .i8, .i16, .i32, .i64, .u8, .u16, .u32, .u64, .f32, .f64]

-- The place of a kind in the order of types.
def index : Scalar → Nat
  | .bool => 0
  | .i8 => 1
  | .i16 => 2
  | .i32 => 3
  | .i64 => 4
  | .u8 => 5
  | .u16 => 6
  | .u32 => 7
  | .u64 => 8
  | .f32 => 9
  | .f64 => 10

def name : Scalar → String
  | .bool => "bool"
  | .i8 => "i8"
  | .i16 => "i16"
  | .i32 => "i32"
  | .i64 => "i64"
  | .u8 => "u8"
  | .u16 => "u16"
  | .u32 => "u32"
  | .u64 => "u64"
  | .f32 => "f32"
  | .f64 => "f64"

def ofName? (text : String) : Option Scalar :=
  all.find? fun kind => kind.name = text

def category : Scalar → Category
  | .bool => .bool
  | .i8 | .i16 | .i32 | .i64 => .signed
  | .u8 | .u16 | .u32 | .u64 => .unsigned
  | .f32 | .f64 => .float

-- Storage width. A truth value takes a byte.
def bits : Scalar → Nat
  | .bool | .i8 | .u8 => 8
  | .i16 | .u16 => 16
  | .i32 | .u32 | .f32 => 32
  | .i64 | .u64 | .f64 => 64

def isBool (kind : Scalar) : Bool :=
  kind = .bool

def isInteger (kind : Scalar) : Bool :=
  kind.category = .signed || kind.category = .unsigned

def isFloat (kind : Scalar) : Bool :=
  kind.category = .float

-- The narrowest signed kind of at least `width` bits, or `i64` if there is none.
def signed (width : Nat) : Scalar :=
  if width ≤ 8 then .i8
  else if width ≤ 16 then .i16
  else if width ≤ 32 then .i32
  else .i64

-- How two kinds that meet are reconciled.
abbrev Policy := Scalar → Scalar → Scalar

-- A float and an integer: only integers of at most 16 bits fit into an `f32`.
def joinFloatInteger (float integer : Scalar) : Scalar :=
  if float = .f32 ∧ integer.bits ≤ 16 then .f32 else .f64

-- A signed kind that holds both ranges, as far as `i64` goes.
def joinSignedUnsigned (lhs rhs : Scalar) : Scalar :=
  signed (max lhs.bits (min (rhs.bits * 2) 64))

-- Numeric promotion: truth values yield, the wider width wins within a
-- category, floats absorb integers, and mixed signs go to a signed kind.
def promote : Policy := fun lhs rhs =>
  if lhs = rhs then lhs
  else
    match lhs.category, rhs.category with
    | .bool, _ => rhs
    | _, .bool => lhs
    | .signed, .signed | .unsigned, .unsigned | .float, .float =>
      if rhs.bits ≤ lhs.bits then lhs else rhs
    | .float, _ => joinFloatInteger lhs rhs
    | _, .float => joinFloatInteger rhs lhs
    | .signed, .unsigned => joinSignedUnsigned lhs rhs
    | .unsigned, .signed => joinSignedUnsigned rhs lhs

end Scalar

end RankPoly
