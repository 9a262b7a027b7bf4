import RuleFilter.Command.Arguments

/-!
The program. It reads its arguments, the environment and the files that they lead to, runs the
command and prints the result.
-/

namespace RuleFilter.Program

def usage : String :=
  "Usage: filterable [OPTIONS] <COMMAND>\n\nCommands:\n" ++
    "  parse <EXPRESSION> [--payload] [--json]  Print the canonical form of a filter\n" ++
    "  compile <EXPRESSION> [--payload]         Print the SQL of a filter\n" ++
    "  fields                                   List the fields of the entity schema\n\n" ++
    "Options:\n" ++
    "  -c, --config <FILE>\n  -s, --schema <FILE>\n" ++
  "  -d, --dialect <NAME>\n  -a, --alias <NAME>\n" ++
    "      --max-expression-bytes <N>\n      --max-depth <N>\n      --max-conditions <N>"

/-- What stands at a path. Something that is there but cannot be read counts as a directory. -/
def look (path : String) : IO (Option Host.Node) := do
  try
    return some (.file (← IO.FS.readBinFile path))
  catch
    | .noFileOrDirectory _ _ _ => return none
    | _ => return some .directory

/-- Surroundings that also know what stands at some more paths. -/
def observe (h : Host) (paths : List String) : IO Host := do
  let seen ← paths.mapM fun path => return (path, ← look path)
  return { h with node? := fun path =>
    match seen.find? (·.1 == path) with
    | some s => s.2
    | none => h.node? path }

def settingsPaths (h : Host) (arguments : Settings.Arguments) : List String :=
  (Settings.homeFile? h).toList ++
    match arguments.file with
    | some file => [h.expand file]
    | none => [Settings.fileName]

def expression? : Command → Option String
  | .parse e _ _ | .compile e _ => some e
  | .fields => none

def commandPaths (h : Host) (s : Settings) (cmd : Command) : List String :=
  s.schema.toList ++
    match (expression? cmd).map String.toList with
    | some ('@' :: path) => [h.expand (String.ofList path)]
    | _ => []

/-- Reads the input up to one byte more than a limit. -/
def readInput (most : Nat) : IO ByteArray := do
  let stdin ← IO.getStdin
  let mut input := ByteArray.empty
  for _ in [0:most + 1] do
    let bytes ← stdin.read (USize.ofNat (most + 1 - input.size))
    if bytes.isEmpty then break
    input := input ++ bytes
    if most < input.size then break
  return input

def environment : IO (String → Option String) := do
  let given ← Command.Setting.all.mapM fun s =>
    return (s.environmentName, ← IO.getEnv s.environmentName)
  return fun name => (given.find? (·.1 == name)).bind (·.2)

/-- Runs a command; what goes wrong is said in the message. -/
def execute (i : Command.Invocation) : IO (Except String String) := do
  let home ← IO.getEnv "HOME"
  let directory ← IO.getEnv "PWD"
  let start : Host := { home, directory, node? := fun _ => none }
  let h ← observe start (settingsPaths start i.arguments)
  let (warnings, settings) := Settings.load h i.arguments
  for w in warnings do
    IO.eprintln w
  match settings with
  | .error e => return .error e.message
  | .ok s =>
    let h ← observe h (commandPaths h s i.command)
    let input ← if expression? i.command = some "-" then readInput s.limits.size else pure .empty
    return (i.command.run { h with input } s).mapError Command.Error.message

end RuleFilter.Program

open RuleFilter in
def main (args : List String) : IO UInt32 := do
  match Command.readArguments (← Program.environment) args with
  | .error .helpAsked =>
    IO.println Program.usage
    return 0
  | .error .versionAsked =>
    IO.println "filterable 0.3.0"
    return 0
  | .error _ =>
    IO.eprintln Program.usage
    return 2
  | .ok i =>
    match ← Program.execute i with
    | .ok output =>
      IO.println output
      return 0
    | .error message =>
      IO.eprintln ("\nError: " ++ message ++ "\n")
      return 1
