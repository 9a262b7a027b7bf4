import RuleFilter.Host.Basic

/-! Arguments that are text or say where to read it. -/

namespace RuleFilter

inductive TextArgument.Error where
  | unreadable (path : String)
  | fileTooLarge (path : String) (size most : Nat)
  | unreadableInput
  | tooLarge (most : Nat)
  deriving DecidableEq

namespace TextArgument

def Error.message : Error → String
  | .unreadable path => "Failed to read " ++ path
  | .fileTooLarge path size most =>
    path ++ " is " ++ toString size ++ " bytes, larger than the limit of " ++ toString most ++
      " bytes"
  | .unreadableInput => "Failed to read standard input"
  | .tooLarge most => "Input is larger than the limit of " ++ toString most ++ " bytes"

/-- The text of a file or of the input, without the blanks at its end. -/
def accept (most : Nat) (text : String) : Except Error String :=
  if most < text.utf8ByteSize then .error (.tooLarge most)
  else .ok (String.ofList (Text.trimEnd text.toList))

def readFile (h : Host) (most : Nat) (path : String) : Except Error String :=
  match h.size? path with
  | none => .error (.unreadable path)
  | some size =>
    if most < size then .error (.fileTooLarge path size most)
    else
      match h.text? path with
      | none => .error (.unreadable path)
      | some text => accept most text

/-- No more of the input is read than shows that it is too large. -/
def readInput (h : Host) (most : Nat) : Except Error String :=
  match String.fromUTF8? (h.input.extract 0 (most + 1)) with
  | none => .error .unreadableInput
  | some text => accept most text

/-- Standard input for `-`, a file for a path after `@`, and otherwise the argument itself. -/
def read (h : Host) (most : Nat) (arg : String) : Except Error String :=
  match arg.toList with
  | ['-'] => readInput h most
  | '@' :: path => readFile h most (h.expand (String.ofList path))
  | _ => .ok arg

end TextArgument

end RuleFilter
