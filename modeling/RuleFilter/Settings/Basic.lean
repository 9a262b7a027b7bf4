import RuleFilter.Host.Basic
import RuleFilter.Limits
import RuleFilter.Settings.Document
import RuleFilter.Sql.Name

/-!
Settings. Each one is the first that is given on the command line, in the file named there or else
in the file of the working directory, in the file of the home directory, or by default.
-/

namespace RuleFilter

structure Settings where
  limits : Limits := {}
  dialect : Dialect := default
  /-- The table alias of columns; empty for none. -/
  tableAlias : String := ""
  schema : Option String := none

namespace Settings

inductive Error where
  | missing (path : String)
  | unreadable (path : String)
  | malformed (path : String)
  | zeroSize | zeroDepth | zeroConditions
  | badAlias (name : String)
  | noSchema
  deriving DecidableEq

def Error.message : Error → String
  | .missing path => "Config file not found: " ++ path
  | .unreadable path => "Failed to read config file: " ++ path
  | .malformed path => "Failed to parse config file: " ++ path
  | .zeroSize => "Configuration error: limits.max_expression_bytes must be greater than 0"
  | .zeroDepth => "Configuration error: limits.max_depth must be greater than 0"
  | .zeroConditions => "Configuration error: limits.max_conditions must be greater than 0"
  | .badAlias name => "Configuration error: sql.alias '" ++ name ++ "' is not a valid identifier"
  | .noSchema => "No entity schema given. Use --schema or set schema.path in the config file"

def fileName : String := "filterable.json"

def homeFile? (h : Host) : Option String :=
  h.home.map fun home =>
    String.ofList (Path.join (Path.join home.toList ".filterable".toList) fileName.toList)

/-- What the command line gives: settings, and a file of settings. -/
structure Arguments where
  file : Option String := none
  layer : Layer := {}

def readFile (h : Host) (path : String) : Except Error Document :=
  match h.text? path with
  | none => .error (.unreadable path)
  | some text =>
    match Document.ofText? text with
    | none => .error (.malformed path)
    | some d => .ok d

def homePath? (h : Host) : Option String := (homeFile? h).filter h.isPresent

/-- The file named on the command line, which has to be there, or else that of the working
directory, if there is one. -/
def overlayPath? (h : Host) (file : Option String) : Except Error (Option String) :=
  match file with
  | some file =>
    if h.isPresent (h.expand file) then .ok (some (h.expand file))
    else .error (.missing (h.expand file))
  | none => .ok (if h.isPresent fileName then some fileName else none)

/-- A document, or an empty one where there is no file. -/
def readOptional (h : Host) : Option String → Except Error Document
  | none => .ok ⟨{}, []⟩
  | some path => readFile h path

def Document.warnings (d : Document) : List String :=
  if d.unknown = [] then []
  else
    ["Unknown fields in config file (possible typos) fields=" ++ String.intercalate ", " d.unknown]

/-- The settings of all layers together. Paths in files are expanded, others are not. -/
def resolve (h : Host) (arguments files : Layer) : Settings :=
  let layer := arguments.orElse { files with schema := files.schema.map h.expand }
  let default : Settings := {}
  { limits :=
      ⟨layer.size.getD default.limits.size, layer.depth.getD default.limits.depth,
        layer.conditions.getD default.limits.conditions⟩
    dialect := layer.dialect.getD default.dialect
    tableAlias := layer.tableAlias.getD default.tableAlias
    schema := layer.schema }

def check (s : Settings) : Except Error Settings :=
  if s.limits.size = 0 then .error .zeroSize
  else if s.limits.depth = 0 then .error .zeroDepth
  else if s.limits.conditions = 0 then .error .zeroConditions
  else if s.tableAlias ≠ "" ∧ ¬ Sql.isIdentifier s.tableAlias then .error (.badAlias s.tableAlias)
  else .ok s

/-- The settings of a run, with the warnings about the files that could be read. -/
def load (h : Host) (arguments : Arguments) : List String × Except Error Settings :=
  match readOptional h (homePath? h) with
  | .error e => ([], .error e)
  | .ok profile =>
    match (overlayPath? h arguments.file).bind (readOptional h) with
    | .error e => (profile.warnings, .error e)
    | .ok overlay =>
      (profile.warnings ++ overlay.warnings,
        (resolve h arguments.layer (overlay.layer.orElse profile.layer)).check)

def requireSchema (s : Settings) : Except Error String :=
  match s.schema with
  | some path => .ok path
  | none => .error .noSchema

end Settings

end RuleFilter
