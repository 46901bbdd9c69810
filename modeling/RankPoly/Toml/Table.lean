import RankPoly.NameMap

namespace RankPoly.Toml

-- How a table came about: on the way to the header of another one, by a dotted
-- key, or by a header of its own.
inductive Origin where
  | implied
  | dotted
  | headed
  deriving DecidableEq, Repr

-- What a name stands for. Values that are not integers, inline tables among
-- them, are not told apart. Of a list of tables only the last one is open.
inductive Item where
  | integer (value : Int)
  | other
  | table (origin : Origin) (items : List (String × Item))
  | tables (last : List (String × Item))

abbrev Table := NameMap Item

-- A name behind the names of the tables on the way to it.
structure Key where
  path : List String
  name : String
  deriving DecidableEq, Repr

namespace Table

-- Adds an item to the table that a path leads to, where dotted keys make the
-- tables that are missing. They do not enter a table that has a header, and do
-- not add to one that they have not made, as `isOpen` says.
def addBelow (name : String) (item : Item) :
    (isOpen : Bool) → (path : List String) → Table → Option Table
  | isOpen, [], table =>
    if !isOpen || table.contains name then none else some (table.insert name item)
  | _, step :: path, table =>
    match table.find? step with
    | none => do
      let inner ← addBelow name item true path []
      return table.insert step (.table .dotted inner)
    | some (.table origin inner) =>
      if origin = .headed then none
      else do
        let inner ← addBelow name item (origin = .dotted) path inner
        return table.insert step (.table origin inner)
    | some (.tables last) => do
      let last ← addBelow name item false path last
      return table.insert step (.tables last)
    | some _ => none

-- Adds an item under a key, which has to be new.
def add (key : Key) (item : Item) (table : Table) : Option Table :=
  addBelow key.name item true key.path table

-- Changes the table that the path of a header leads to. Tables on the way that
-- are missing are implied.
def changeAt (change : Table → Option Table) : (path : List String) → Table → Option Table
  | [], table => change table
  | step :: path, table =>
    match table.find? step with
    | none => do
      let inner ← changeAt change path []
      return table.insert step (.table .implied inner)
    | some (.table origin inner) => do
      let inner ← changeAt change path inner
      return table.insert step (.table origin inner)
    | some (.tables last) => do
      let last ← changeAt change path last
      return table.insert step (.tables last)
    | some _ => none

-- Gives a table its header. It is new, or was only implied so far.
def openTable (key : Key) : Table → Option Table :=
  changeAt
    (fun parent =>
      match parent.find? key.name with
      | none => some (parent.insert key.name (.table .headed []))
      | some (.table .implied items) => some (parent.insert key.name (.table .headed items))
      | some _ => none)
    key.path

-- Puts a new table at the end of a list of tables.
def appendTable (key : Key) : Table → Option Table :=
  changeAt
    (fun parent =>
      match parent.find? key.name with
      | none | some (.tables _) => some (parent.insert key.name (.tables []))
      | some _ => none)
    key.path

end Table

end RankPoly.Toml
