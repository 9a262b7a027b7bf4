import RuleFilter.Rule.Basic
import RuleFilter.Schema.Basic
import RuleFilter.Text.Listing

/-!
Form configurations, which say how a user interface shows a comparison. Guessers change a form in
the order of their chain. The first form type offered stays; an option that is set takes the last
value, and a default only fills an option that nobody has written yet. A chain over the usual
sources comes to the list of all their changes.
-/

namespace RuleFilter

structure Form where
  type? : Option String := none
  options : Json.Members := []

namespace Form

inductive Change where
  | offerType (type : String)
  | merge (options : Json.Members)
  | set (key : String) (v : Json)
  | fill (key : String) (v : Json)

/-- Keeps a form type that is already there. -/
def offerType (form : Form) (type : String) : Form :=
  match form.type? with
  | some _ => form
  | none => { form with type? := some type }

def apply (form : Form) : Change → Form
  | .offerType type => form.offerType type
  | .merge options => { form with options := Entries.putAll form.options options }
  | .set key v => { form with options := Entries.put form.options key v }
  | .fill key v => { form with options := Entries.putNew form.options key v }

def applyAll (form : Form) (changes : List Change) : Form := changes.foldl apply form

@[simp] theorem applyAll_nil (form : Form) : form.applyAll [] = form := rfl

@[simp] theorem applyAll_append (form : Form) (cs ds : List Change) :
    form.applyAll (cs ++ ds) = (form.applyAll cs).applyAll ds := by
  simp [applyAll]

/-- The members of the JSON form. -/
def members (form : Form) : Json.Members :=
  (form.type?.map fun t => ("type", Json.string t)).toList ++ [("options", .object form.options)]

end Form

/-- Changes the form of a comparison, knowing the field that it tests. -/
structure Guesser where
  name : String
  guess : Comparison → Schema.Field → Form → Form

namespace Guesser

open Form.Change

/-- What the schema declares. -/
def declaredChanges (f : Schema.Field) : List Form.Change :=
  (f.formType.map offerType).toList ++ [merge f.formOptions]

/-- What the operator implies. -/
def operatorChanges : Operator → List Form.Change
  | .oneOf | .noneOf => [set "multiple" (.bool true)]
  | .between => [set "range" (.bool true)]
  | .contains => [set "match" (.string "contains")]
  | .startsWith => [set "match" (.string "prefix")]
  | .endsWith => [set "match" (.string "suffix")]
  | .isNull | .isNotNull => [offerType "checkbox"]
  | .eq | .neq | .gt | .gte | .lt | .lte => []

def typeControl : FieldType → String
  | .string | .uuid => "text"
  | .integer | .float => "number"
  | .datetime => "datetime"
  | .boolean => "checkbox"
  | .choice => "choice"

/-- What the type of the field suggests where nothing else is known. -/
def typeChanges (f : Schema.Field) : List Form.Change :=
  offerType (typeControl f.type) ::
    match f.type with
    | .integer => [fill "step" (.integer 1)]
    | .float => [fill "step" (.string "any")]
    | .choice => [fill "choices" (.strings f.choices)]
    | .string | .boolean | .datetime | .uuid => []

/-- Where a guesser takes its changes from; a fixed change is the same for every comparison. -/
inductive Source where
  | metadata | operator | fieldType
  | fixed (change : Form.Change)

def Source.name : Source → String
  | .metadata => "metadata"
  | .operator => "operator"
  | .fieldType => "field_type"
  | .fixed _ => "custom"

def Source.changes (source : Source) (c : Comparison) (f : Schema.Field) : List Form.Change :=
  match source with
  | .metadata => declaredChanges f
  | .operator => operatorChanges c.operator
  | .fieldType => typeChanges f
  | .fixed change => [change]

def ofSource (source : Source) : Guesser where
  name := source.name
  guess c f form := form.applyAll (source.changes c f)

/-- Guessers in the order in which they run. -/
abbrev Chain := List Guesser

namespace Chain

def ofSources (sources : List Source) : Chain := sources.map ofSource

def standard : Chain := ofSources [.metadata, .operator, .fieldType]

def refine (chain : Chain) (c : Comparison) (f : Schema.Field) (form : Form) : Form :=
  chain.foldl (fun form g => g.guess c f form) form

/-- The form of one comparison. -/
def run (chain : Chain) (c : Comparison) (f : Schema.Field) : Form := chain.refine c f {}

theorem refine_ofSources (sources : List Source) (c : Comparison) (f : Schema.Field) (form : Form) :
    (ofSources sources).refine c f form =
      form.applyAll (sources.flatMap fun s => s.changes c f) := by
  induction sources generalizing form with
  | nil => rfl
  | cons s sources ih =>
    rw [List.flatMap_cons, Form.applyAll_append, ← ih]
    rfl

def text (chain : Chain) : String := Text.listing (chain.map Guesser.name)

end Chain

end Guesser

end RuleFilter
