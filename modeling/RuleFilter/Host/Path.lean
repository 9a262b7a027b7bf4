import RuleFilter.Text.Blank

/-! Paths. They are joined and expanded as text and never made shorter. -/

namespace RuleFilter.Path

def isAbsolute : List Char → Bool
  | '/' :: _ => true
  | _ => false

/-- One path below another; an absolute second path stands alone. -/
def join (base path : List Char) : List Char :=
  if isAbsolute path || base.isEmpty then path
  else if base.getLast? = some '/' then base ++ path
  else base ++ '/' :: path

/-- Replaces a leading `~` by the home directory. -/
def expandHome (home : List Char) : List Char → List Char
  | ['~'] => home
  | '~' :: '/' :: path => join home path
  | path => path

/-- The path that a user means: blanks around it do not count, `~` is the home directory, and a
relative path, or none at all, starts from the working directory. Where a directory is not known
there is nothing to put in its place. -/
def expand (home directory : Option (List Char)) (path : List Char) : List Char :=
  match Text.trim path with
  | [] => directory.getD ['.']
  | path =>
    let path := home.elim path fun home => expandHome home path
    if isAbsolute path then path else directory.elim path fun directory => join directory path

end RuleFilter.Path
