import RuleFilter.Json.Basic
import RuleFilter.Record.Sequence
import RuleFilter.Text.Listing
import RuleFilter.Text.Markup

/-!
Hooks on the life of a record: before it is inserted, before it is updated, and after it is read. A
chain runs its hooks in order and stops at the first that fails.
-/

namespace RuleFilter

abbrev Record := Json.Members

/-- Whether a record has no usable value for a field. -/
def Record.lacks (r : Record) (field : String) : Bool :=
  match Entries.value? r field with
  | none | some .null => true
  | some _ => false

inductive HookError where
  | notText (field : String) (kind : String)
  | badLocales
  | sequence (name message : String)
  | defaults (entity message : String)
  deriving DecidableEq

/-- The member of a record that holds values of its fields in other locales, by locale and then by
field. -/
def Record.localesKey : String := "translations"

namespace HookError

def message : HookError → String
  | .notText field kind => "Field '" ++ field ++ "' is invalid: expected a string, got " ++ kind
  | .badLocales =>
    "Field '" ++ Record.localesKey ++ "' is invalid: expected an object keyed by locale"
  | .sequence name message => "Sequence '" ++ name ++ "' failed: " ++ message
  | .defaults entity message =>
    "Default values unavailable for '" ++ entity ++ "': " ++ message

def exhausted (name : String) : HookError := .sequence name "sequence exhausted"

end HookError

namespace Hook

inductive Point where
  | beforeInsert | beforeUpdate | onRead
  deriving DecidableEq

def Point.name : Point → String
  | .beforeInsert => "before_insert"
  | .beforeUpdate => "before_update"
  | .onRead => "on_read"

/-- What hooks draw from besides the record: sequences, and a supply of fresh identifiers. -/
structure Supply where
  stores : SequenceStores := fun _ => []
  identifier : Nat → String
  drawn : Nat := 0

/-- Where automatic numbers come from: a store of sequences, or a source outside of it. Such a
source gives or refuses a number for the name of a sequence as it likes, and what it gives next may
depend on what it gave before. -/
inductive NumberSource where
  | store (i : Nat)
  | other (answer : String → Supply → Except HookError Nat × Supply)

def NumberSource.failing (message : String) : NumberSource :=
  .other fun sequence s => (.error (.sequence sequence message), s)

/-- Where default values come from: fixed ones, or a source that gives or refuses the values of an
entity as it likes. -/
inductive DefaultSource where
  | fixed (values : Record)
  | other (answer : String → Supply → Except HookError Record × Supply)

def DefaultSource.failing (message : String) : DefaultSource :=
  .other fun entity s => (.error (.defaults entity message), s)

/-- The state after a hook or a chain has run, with the error that stopped it. -/
structure Outcome where
  record : Record
  supply : Supply
  error : Option HookError := none

end Hook

open Hook in
inductive Hook where
  | identifier (field : String)
  | number (field : String) (lead : String) (width : Nat) (source : NumberSource)
  | defaults (entity : String) (source : DefaultSource)
  | htmlSafe (fields : List String)
  | localize (fields : List String) (locale : String) (fallback : Option String)

namespace Hook

def name : Hook → String
  | .identifier _ => "uuid_primary_key"
  | .number _ _ _ _ => "auto_number"
  | .defaults _ _ => "default_values"
  | .htmlSafe _ => "html_safe"
  | .localize _ _ _ => "translatable"

def escapeColon (c : Char) : List Char := if c = '\\' ∨ c = ':' then ['\\', c] else [c]

/-- The sequence of the numbers of a field with a lead. Colons in the lead are escaped, so that the
first bare one ends it. -/
def sequenceName (lead field : String) : String :=
  String.ofList (lead.toList.flatMap escapeColon ++ ':' :: field.toList)

/-- A lead and a number with zeros in front up to a width. -/
def formatNumber (lead : String) (width n : Nat) : String :=
  let digits := Nat.toDigits 10 n
  lead ++ String.ofList (List.replicate (width - digits.length) '0' ++ digits)

def drawIdentifier (field : String) (r : Record) (s : Supply) : Outcome :=
  if r.lacks field then
    ⟨Entries.put r field (.string (s.identifier s.drawn)), { s with drawn := s.drawn + 1 }, none⟩
  else ⟨r, s, none⟩

def drawNumber (source : NumberSource) (sequence : String) (s : Supply) :
    Except HookError Nat × Supply :=
  match source with
  | .other answer => answer sequence s
  | .store i =>
    match (s.stores i).draw sequence with
    | none => (.error (.exhausted sequence), s)
    | some (n, sequences) => (.ok n, { s with stores := SequenceStores.put s.stores i sequences })

def assignNumber (field lead : String) (width : Nat) (source : NumberSource) (r : Record)
    (s : Supply) : Outcome :=
  if r.lacks field then
    match drawNumber source (sequenceName lead field) s with
    | (.error e, s) => ⟨r, s, some e⟩
    | (.ok n, s) => ⟨Entries.put r field (.string (formatNumber lead width n)), s, none⟩
  else ⟨r, s, none⟩

/-- Puts each value whose field the record lacks. -/
def putDefaults (values : Record) (r : Record) : Record :=
  values.foldl (fun r (field, v) => if r.lacks field then Entries.put r field v else r) r

def assignDefaults (entity : String) (source : DefaultSource) (r : Record) (s : Supply) : Outcome :=
  match source with
  | .fixed values => ⟨putDefaults values r, s, none⟩
  | .other answer =>
    match answer entity s with
    | (.error e, s) => ⟨r, s, some e⟩
    | (.ok values, s) => ⟨putDefaults values r, s, none⟩

/-- Escapes the text of the fields in order, up to the first that holds something else. -/
def escapeFields : List String → Record → Record × Option HookError
  | [], r => (r, none)
  | field :: fields, r =>
    match Entries.value? r field with
    | none | some .null => escapeFields fields r
    | some (.string s) => escapeFields fields (Entries.put r field (.string (Text.escapeHtml s)))
    | some v => (r, some (.notText field v.kind))

/-- The value of a field in one locale, unless it is null. -/
def localized? (values : Json) (field locale : String) : Option Json :=
  match (values.member? locale).bind fun fields => fields.member? field with
  | some .null => none
  | v => v

/-- Puts the values of the fields that have one in the first locale that has it. All of them
are looked up before any is put. -/
def putLocalized (fields locales : List String) (values : Json) (r : Record) : Record :=
  Entries.putAll r <| fields.filterMap fun field =>
    (locales.findSome? (localized? values field)).map (field, ·)

def localizeFields (fields locales : List String) (r : Record) : Record × Option HookError :=
  match Entries.value? r Record.localesKey with
  | none => (r, none)
  | some (.object members) => (putLocalized fields locales (.object members) r, none)
  | some _ => (r, some .badLocales)

/-- What a hook does at a point; where it has nothing to do it changes nothing. -/
def run (hook : Hook) (point : Point) (r : Record) (s : Supply) : Outcome :=
  match hook, point with
  | .identifier field, .beforeInsert => drawIdentifier field r s
  | .number field lead width source, .beforeInsert => assignNumber field lead width source r s
  | .defaults entity source, .beforeInsert => assignDefaults entity source r s
  | .htmlSafe fields, .beforeInsert | .htmlSafe fields, .beforeUpdate =>
    let (r, e) := escapeFields fields r
    ⟨r, s, e⟩
  | .localize fields locale fallback, .onRead =>
    let (r, e) := localizeFields fields (locale :: fallback.toList) r
    ⟨r, s, e⟩
  | _, _ => ⟨r, s, none⟩

abbrev Chain := List Hook

def Chain.run (point : Point) : Chain → Record → Supply → Outcome
  | [], r, s => ⟨r, s, none⟩
  | hook :: hooks, r, s =>
    let o := hook.run point r s
    match o.error with
    | some _ => o
    | none => Chain.run point hooks o.record o.supply

def Chain.text (chain : Chain) : String := Text.listing (chain.map Hook.name)

end Hook

end RuleFilter
