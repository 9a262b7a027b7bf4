import RuleFilter.Host.Basic
import RuleFilter.Text.Pieces

/-! File trees held in memory. -/

namespace RuleFilter.Host

/-- Files and directories by the names on the way to them from the root. The directories on that way
need not be listed. -/
structure Tree where
  files : List (List String × ByteArray)
  directories : List (List String)

namespace Tree

def names (path : String) : List String := (Text.pieces '/' path.toList).map String.ofList

def isDirectory (t : Tree) (place : List String) : Bool :=
  place.isEmpty || t.directories.any place.isPrefixOf ||
    t.files.any fun f => place.isPrefixOf f.1 && place != f.1

def node? (t : Tree) (place : List String) : Option Node :=
  match t.files.find? (·.1 == place) with
  | some f => some (.file f.2)
  | none => if t.isDirectory place then some .directory else none

/-- Follows names from a place. Every name has to be looked up in a directory. -/
def walk (t : Tree) : (place : List String) → List String → Option (List String)
  | place, [] => some place
  | place, name :: names =>
    if ¬ t.isDirectory place then none
    else if name = "" ∨ name = "." then walk t place names
    else if name = ".." then walk t place.dropLast names
    else walk t (place ++ [name]) names

def lookup? (t : Tree) (directory path : String) : Option Node :=
  if path = "" then none
  else
    let path := String.ofList (Path.join directory.toList path.toList)
    (t.walk [] (names path)).bind t.node?

end Tree

/-- Surroundings whose files are held in memory, by absolute paths. -/
def ofFiles (home directory : String) (files : List (String × ByteArray)) : Host :=
  let place := fun path => (Tree.names path).filter (· ≠ "")
  let tree : Tree :=
    ⟨files.map fun f => (place f.1, f.2), [place home, place directory]⟩
  { home := some home, directory := some directory, node? := tree.lookup? directory }

end RuleFilter.Host
