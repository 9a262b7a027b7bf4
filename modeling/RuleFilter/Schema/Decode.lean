import RuleFilter.Schema.Document

/-!
Fields out of any form. What decodes a field asks the same of every form that it decodes: for the
parts of a document and for what they hold. A document as written is one such form; a value in
memory is another, in which nesting has no bound.
-/

namespace RuleFilter

namespace Json

/-- What decoding asks of a form that documents take. -/
structure View (δ : Type) where
  parts? : Layout → δ → Option (List (Option δ))
  string? : δ → Option String
  bool? : δ → Option Bool
  isNull : δ → Bool
  /-- A name, as a string or as the only key of an object, over null. -/
  name? : δ → Option String
  items? : δ → Option (List δ)
  options? : δ → Option Members

namespace View

variable {δ α : Type} (view : View δ)

def named? (ofName? : String → Option α) (d : δ) : Option α := (view.name? d).bind ofName?

def list? (decode : δ → Option α) (d : δ) : Option (List α) :=
  (view.items? d).bind fun ds => ds.mapM decode

/-- A part that may be null, which counts as left out. -/
def nullable? (decode : δ → Option α) : Option δ → Option (Option α)
  | none => some none
  | some d => if view.isNull d then some none else (decode d).map some

/-- A part with a default for where it is left out. -/
def withDefault? (default : α) (decode : δ → Option α) : Option δ → Option α
  | none => some default
  | some d => decode d

end View

section Values

/-- A part of an object, none for one left out that need not be there. -/
def partOfMembers? (members : Members) (p : String × Presence) : Option (Option Json) :=
  match Entries.value? members p.1 with
  | some v => some (some v)
  | none => if p.2 = .required then none else some none

def partsOfItems? : Layout → List Json → Option (List (Option Json))
  | [], [] => some []
  | [], _ :: _ => none
  | (_, presence) :: parts, [] =>
    if presence = .trailing then (partsOfItems? parts []).map (none :: ·) else none
  | _ :: parts, v :: vs => (partsOfItems? parts vs).map (some v :: ·)

def parts? (layout : Layout) : Json → Option (List (Option Json))
  | .object members => layout.mapM (partOfMembers? members)
  | .array items => partsOfItems? layout items
  | _ => none

def bool? : Json → Option Bool
  | .bool b => some b
  | _ => none

def name? : Json → Option String
  | .string s => some s
  | .object [(k, .null)] => some k
  | _ => none

def members? : Json → Option Members
  | .object members => some members
  | _ => none

def view : View Json := ⟨parts?, string?, bool?, isNull, name?, array?, members?⟩

end Values

namespace Written

def isNull : Written → Bool
  | .null => true
  | _ => false

def name? : Written → Option String
  | .string s => textOf s
  | .object [(k, .null)] => textOf k
  | _ => none

def items? : Written → Option (List Written)
  | .array items => some items
  | _ => none

def view : View Written := ⟨parts?, string?, bool?, isNull, name?, items?, Schema.options?⟩

end Written

end Json

namespace Schema.Field

open Json

/-- Decodes a field from any form. -/
def decode? {δ : Type} (view : View δ) (d : δ) : Option Field := do
  match ← view.parts? layout d with
  | [name, type, column, nullable, operators, choices, formType, formOptions] =>
    return {
      name := ← name.bind view.string?
      type := ← type.bind (view.named? FieldType.ofName?)
      column? := ← view.nullable? view.string? column
      nullable := ← View.withDefault? true view.bool? nullable
      operators? := ← view.nullable? (view.list? (view.named? Operator.ofName?)) operators
      choices := ← View.withDefault? [] (view.list? view.string?) choices
      formType := ← view.nullable? view.string? formType
      formOptions := ← View.withDefault? [] view.options? formOptions }
  | _ => none

def ofJson? (v : Json) : Option Field := decode? Json.view v

end Schema.Field

end RuleFilter
