import RuleFilter.Host.Path

/-!
The surroundings of a run: two directories, which may be unknown, the files, and standard input.
-/

namespace RuleFilter

inductive Host.Node where
  | file (content : ByteArray)
  | directory

structure Host where
  home : Option String
  directory : Option String
  /-- What stands at a path; a relative one starts from the working directory. -/
  node? : String → Option Host.Node
  input : ByteArray := .empty

namespace Host

def expand (h : Host) (path : String) : String :=
  String.ofList
    (Path.expand (h.home.map String.toList) (h.directory.map String.toList) path.toList)

def isPresent (h : Host) (path : String) : Bool := (h.node? path).isSome

/-- The size in bytes. That of a directory is nominal. -/
def size? (h : Host) (path : String) : Option Nat :=
  match h.node? path with
  | none => none
  | some (.file content) => some content.size
  | some .directory => some 4096

/-- The text of a file; a directory or anything but UTF-8 has none. -/
def text? (h : Host) (path : String) : Option String :=
  match h.node? path with
  | some (.file content) => String.fromUTF8? content
  | _ => none

section Files

variable {h : Host} {path text : String}

theorem size?_of_file (hfile : h.node? path = some (.file text.toByteArray)) :
    h.size? path = some text.utf8ByteSize := by
  rw [size?, hfile]
  rfl

theorem text?_of_file (hfile : h.node? path = some (.file text.toByteArray)) :
    h.text? path = some text := by
  rw [text?, hfile]
  exact dif_pos text.isValidUTF8

end Files

end Host

end RuleFilter
