namespace RankPoly

-- A finite map from names, kept as its entries in name order.
-- Names are ordered by code point.
abbrev NameMap (α : Type) := List (String × α)

namespace NameMap

variable {α : Type}

def find? (name : String) : NameMap α → Option α
  | [] => none
  | (key, value) :: rest => if key = name then some value else find? name rest

-- Binds `name` at its place in the order. An earlier binding is replaced.
def insert (name : String) (value : α) : NameMap α → NameMap α
  | [] => [(name, value)]
  | (key, old) :: rest =>
    match compare name key with
    | .lt => (name, value) :: (key, old) :: rest
    | .eq => (name, value) :: rest
    | .gt => (key, old) :: insert name value rest

def contains (map : NameMap α) (name : String) : Bool :=
  (map.find? name).isSome

def keys (map : NameMap α) : List String :=
  map.map Prod.fst

-- The later of two bindings of one name counts.
def ofList (entries : List (String × α)) : NameMap α :=
  entries.foldl (fun map entry => map.insert entry.1 entry.2) []

-- The keys stand in strictly increasing order, so no name is bound twice.
def Sorted (map : NameMap α) : Prop :=
  map.keys.Pairwise (· < ·)

end NameMap

end RankPoly
