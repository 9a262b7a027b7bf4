import RuleFilter.Command.Basic

/-!
Command line arguments. Settings may stand before the name of the command and after it; a setting
after the name wins over one before it, and both win over the environment. Each setting is given at
most once on either side.
-/

namespace RuleFilter

namespace Command

inductive Verb where
  | parse | compile | fields
  deriving DecidableEq

/-- The settings that take a value. -/
inductive Setting where
  | file | schema | dialect | tableAlias | size | depth | conditions
  deriving DecidableEq

inductive Switch where
  | payload | json
  deriving DecidableEq

inductive Level where
  | top
  | verb (v : Verb)
  deriving DecidableEq

inductive Refusal where
  | helpAsked
  | versionAsked
  | nothingGiven
  | missingCommand
  | unknownCommand
  | unknownArgument
  | missingExpression
  | repeated
  | missingValue
  | badValue
  | needlessValue
  deriving DecidableEq

def Verb.ofName? : String → Option Verb
  | "parse" => some .parse
  | "compile" => some .compile
  | "fields" => some .fields
  | _ => none

namespace Setting

/-- In the order in which the environment is read. -/
def all : List Setting := [.file, .schema, .dialect, .tableAlias, .size, .depth, .conditions]

def long : Setting → String
  | .file => "config"
  | .schema => "schema"
  | .dialect => "dialect"
  | .tableAlias => "alias"
  | .size => "max-expression-bytes"
  | .depth => "max-depth"
  | .conditions => "max-conditions"

def short? : Setting → Option Char
  | .file => some 'c'
  | .schema => some 's'
  | .dialect => some 'd'
  | .tableAlias => some 'a'
  | .size | .depth | .conditions => none

/-- The environment variable that gives the setting where no argument does. -/
def environmentName : Setting → String
  | .file => "FILTERABLE_CONFIG"
  | .schema => "FILTERABLE_SCHEMA"
  | .dialect => "FILTERABLE_DIALECT"
  | .tableAlias => "FILTERABLE_ALIAS"
  | .size => "FILTERABLE_MAX_EXPRESSION_BYTES"
  | .depth => "FILTERABLE_MAX_DEPTH"
  | .conditions => "FILTERABLE_MAX_CONDITIONS"

end Setting

/-- What a name after hyphens stands for. -/
inductive Meaning where
  | setting (s : Setting)
  | switch (s : Switch)
  | help
  | version

namespace Level

def long? (level : Level) (name : String) : Option Meaning :=
  match Setting.all.find? (·.long == name) with
  | some s => some (.setting s)
  | none =>
    match level, name with
    | _, "help" => some .help
    | .top, "version" => some .version
    | .verb .parse, "payload" | .verb .compile, "payload" => some (.switch .payload)
    | .verb .parse, "json" => some (.switch .json)
    | _, _ => none

def short? (level : Level) (c : Char) : Option Meaning :=
  match Setting.all.find? (·.short? == some c) with
  | some s => some (.setting s)
  | none =>
    match level, c with
    | _, 'h' => some .help
    | .top, 'V' => some .version
    | _, _ => none

end Level

/-- The forms of an argument: a long name with or without a value after `=`, a letter with what
follows it, or a word. -/
inductive Form where
  | long (name : String) (attached : Option String)
  | short (c : Char) (rest : List Char)
  | word

namespace Form

def ofLong (cs : List Char) : Form :=
  let name := String.ofList (cs.takeWhile (· != '='))
  match cs.dropWhile (· != '=') with
  | [] => .long name none
  | _ :: value => .long name (some (String.ofList value))

def of (arg : String) : Form :=
  match arg.toList with
  | '-' :: '-' :: cs => ofLong cs
  | '-' :: c :: rest => .short c rest
  | _ => .word

end Form

/-- The value attached to a letter; a sign between them does not belong to it. -/
def attached? : List Char → Option String
  | [] => none
  | '=' :: value => some (String.ofList value)
  | value => some (String.ofList value)

/-- A whole number that fits 64 bits, with an optional plus. -/
def natOfText? (s : String) : Option Nat :=
  let digits := match s.toList with
    | '+' :: cs => cs
    | cs => cs
  if digits = [] ∨ ¬ digits.all Char.isDigit then none
  else if Decimal.natOfDigits digits < UInt64.size then some (Decimal.natOfDigits digits)
  else none

def given? (a : Settings.Arguments) : Setting → Bool
  | .file => a.file.isSome
  | .schema => a.layer.schema.isSome
  | .dialect => a.layer.dialect.isSome
  | .tableAlias => a.layer.tableAlias.isSome
  | .size => a.layer.size.isSome
  | .depth => a.layer.depth.isSome
  | .conditions => a.layer.conditions.isSome

def give (a : Settings.Arguments) (s : Setting) (value : String) :
    Except Refusal Settings.Arguments :=
  if given? a s then .error .repeated
  else
    let number := fun (f : Nat → Settings.Layer) =>
      match natOfText? value with
      | some n => Except.ok { a with layer := f n }
      | none => .error .badValue
    match s with
    | .file => if value = "" then .error .missingValue else .ok { a with file := some value }
    | .schema =>
      if value = "" then .error .missingValue
      else .ok { a with layer := { a.layer with schema := some value } }
    | .dialect =>
      match Dialect.ofText? value with
      | some d => .ok { a with layer := { a.layer with dialect := some d } }
      | none => .error .badValue
    | .tableAlias => .ok { a with layer := { a.layer with tableAlias := some value } }
    | .size => number fun n => { a.layer with size := some n }
    | .depth => number fun n => { a.layer with depth := some n }
    | .conditions => number fun n => { a.layer with conditions := some n }

/-- Adds the settings that only the environment gives. -/
def addEnvironment (environment : String → Option String) (a : Settings.Arguments) :
    Except Refusal Settings.Arguments :=
  Setting.all.foldlM (fun a s =>
    if given? a s then .ok a
    else
      match environment s.environmentName with
      | some value => give a s value
      | none => .ok a) a

/-- What has been read on one side of the name of the command. A setting whose value is a separate
argument is pending until something else follows. -/
structure Progress where
  given : Settings.Arguments := {}
  switches : List Switch := []
  expression : Option String := none
  pending : Option (Setting × Option String) := none

namespace Progress

/-- Whether the next argument is the value of the one before, unless it begins with a hyphen. -/
def awaits (p : Progress) : Bool :=
  match p.pending with
  | some (_, none) => true
  | _ => false

def settle (p : Progress) : Except Refusal Progress :=
  match p.pending with
  | none => .ok p
  | some (_, none) => .error .missingValue
  | some (s, some value) => do
    return { p with given := ← give p.given s value, pending := none }

def named (p : Progress) (m : Meaning) (attached : Option String) : Except Refusal Progress :=
  match m, attached with
  | .setting s, some value => do
    let p ← p.settle
    return { p with given := ← give p.given s value }
  | .setting s, none => do
    let p ← p.settle
    return { p with pending := some (s, none) }
  | .switch s, none => do
    let p ← p.settle
    if s ∈ p.switches then .error .repeated else .ok { p with switches := s :: p.switches }
  | .help, none => do
    let _ ← p.settle
    .error .helpAsked
  | .version, none => do
    let _ ← p.settle
    .error .versionAsked
  | _, some _ => .error .needlessValue

/-- A word that is no value, where `trailing` says that it comes after `--`. -/
def word (p : Progress) (level : Level) (trailing : Bool) (arg : String) :
    Except Refusal Progress :=
  match level with
  | .top =>
    if trailing ∧ (arg = "help" ∨ (Verb.ofName? arg).isSome) then .error .unknownArgument
    else .error .unknownCommand
  | .verb .fields => .error .unknownArgument
  | .verb _ =>
    if p.expression.isSome then .error .unknownArgument
    else do
      let p ← p.settle
      return { p with expression := some arg }

/-- An argument that neither names a command nor ends the options. -/
def argument (p : Progress) (level : Level) (arg : String) : Except Refusal Progress :=
  match Form.of arg with
  | .long name attached =>
    match level.long? name with
    | some m => p.named m attached
    | none => .error .unknownArgument
  | .short c rest =>
    match level.short? c with
    | some (.setting s) => p.named (.setting s) (attached? rest)
    | some m => p.named m none
    | none => .error .unknownArgument
  | .word =>
    match p.pending with
    | some (s, none) => .ok { p with pending := some (s, some arg) }
    | _ => p.word level false arg

end Progress

/-- What asking for help on a command comes to. -/
def helpOn : List String → Refusal
  | [] => .helpAsked
  | [name] => if name = "help" ∨ (Verb.ofName? name).isSome then .helpAsked else .unknownCommand
  | _ => .unknownCommand

def verb? (level : Level) (p : Progress) (arg : String) : Option Verb :=
  if level = .top ∧ ¬ p.awaits then Verb.ofName? arg else none

/-- Reads the arguments of one side, up to the name of the command. -/
def readSide (level : Level) : (trailing : Bool) → Progress → List String →
    Except Refusal (Progress × Option (Verb × List String))
  | _, p, [] => .ok (p, none)
  | true, p, arg :: args => do readSide level true (← p.word level true arg) args
  | false, p, arg :: args =>
    match verb? level p arg with
    | some v => .ok (p, some (v, args))
    | none =>
      if level = .top ∧ ¬ p.awaits ∧ arg = "help" then .error (helpOn args)
      else if arg = "--" then readSide level true p args
      else do readSide level false (← p.argument level arg) args

structure Invocation where
  command : Command
  arguments : Settings.Arguments

def ofProgress (v : Verb) (p : Progress) : Except Refusal Command :=
  match v, p.expression with
  | .fields, _ => .ok .fields
  | _, none => .error .missingExpression
  | .parse, some e => .ok (.parse e (.payload ∈ p.switches) (.json ∈ p.switches))
  | .compile, some e => .ok (.compile e (.payload ∈ p.switches))

def readArguments (environment : String → Option String) (args : List String) :
    Except Refusal Invocation := do
  let (top, rest) ← readSide .top false {} args
  match rest with
  | none =>
    let given ← addEnvironment environment (← top.settle).given
    .error (if Setting.all.any (given? given) then .missingCommand else .nothingGiven)
  | some (v, args) =>
    let (side, _) ← readSide (.verb v) false {} args
    let side ← side.settle
    let _ ← addEnvironment environment side.given
    let command ← ofProgress v side
    let top ← top.settle
    let _ ← addEnvironment environment top.given
    let given : Settings.Arguments :=
      ⟨side.given.file.or top.given.file, side.given.layer.orElse top.given.layer⟩
    return ⟨command, ← addEnvironment environment given⟩

end Command

end RuleFilter
