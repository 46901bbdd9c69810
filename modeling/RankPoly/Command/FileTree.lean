import RankPoly.Command.Run

namespace RankPoly.Command

-- The files below a directory, by the names on the way to them.
structure FileTree where
  files : List (List String × String)
  directories : List (List String)

namespace FileTree

def names (path : String) : List String :=
  (path.splitOn "/").filter fun name => name ≠ "" && name ≠ "."

-- The directories on the way to a place, the place itself included.
def pathsTo (place : List String) : List (List String) :=
  (List.range (place.length + 1)).map place.take

-- A tree of files, with one directory that exists in any case.
def ofFiles (files : List (String × String)) (directory : List String) : FileTree :=
  let files := files.map fun file => (names file.1, file.2)
  { files
    directories := (files.flatMap fun file => pathsTo file.1.dropLast) ++ pathsTo directory }

def text? (tree : FileTree) (place : List String) : Option String :=
  (tree.files.find? fun file => file.1 = place).map Prod.snd

-- Where a path leads from a place. Steps to the same place or upwards can
-- only be made from a directory, and none leads out of the tree.
def follow (tree : FileTree) (place : List String) : List String → Option (List String)
  | [] => some place
  | step :: rest =>
    if step = "" ∨ step = "." then
      if place ∈ tree.directories then follow tree place rest else none
    else if step = ".." then
      if place ∈ tree.directories ∧ place ≠ [] then follow tree place.dropLast rest else none
    else follow tree (place ++ [step]) rest

-- The file that a path names, as seen from a directory.
def file (tree : FileTree) (directory : List String) (path : String) : File where
  path
  text :=
    if path.toList.head? = some '/' then none
    else (tree.follow directory (path.splitOn "/")).bind tree.text?

-- The nearest file of a name in a directory or above. Its path begins with
-- that of the tree.
def nearest? (tree : FileTree) (root name : String) (directory : List String) : Option File :=
  (pathsTo directory).reverse.findSome? fun place =>
    (tree.text? (place ++ [name])).map fun text =>
      { path := "/".intercalate (root :: place ++ [name]), text := some text }

end FileTree

end RankPoly.Command
