import RuleFilter.Form
import RuleFilter.Proofs.Entries

/-!
Which of the changes to a form counts. The first form type that is offered stays. Under each key the
last value that was set counts, or the first default where none was set, and the keys stand in the
order in which they were first written.
-/

namespace RuleFilter

namespace Form

namespace Change

def offered? : Change → Option String
  | .offerType type => some type
  | .merge _ | .set _ _ | .fill _ _ => none

/-- The options that are written whatever is there. -/
def overriding : Change → Json.Members
  | .merge options => options
  | .set key v => [(key, v)]
  | .offerType _ | .fill _ _ => []

/-- The options that are written where they are missing. -/
def filling : Change → Json.Members
  | .fill key v => [(key, v)]
  | .offerType _ | .merge _ | .set _ _ => []

/-- The keys that are written, also where they are there already. -/
def keys (change : Change) : List String := change.overriding.names ++ change.filling.names

end Change

variable (form : Form) (change : Change) (changes : List Change)

theorem applyAll_cons : form.applyAll (change :: changes) = (form.apply change).applyAll changes :=
  rfl

@[simp] theorem options_offerType (type : String) :
    (form.offerType type).options = form.options := by
  rw [offerType]
  split <;> rfl

theorem type?_apply : (form.apply change).type? = form.type?.or change.offered? := by
  cases change with
  | offerType type =>
    rw [apply, offerType]
    split
    · next hsome => simp [hsome]
    · next hnone => simp [hnone, Change.offered?]
  | merge options => exact Option.or_none.symm
  | set key v => exact Option.or_none.symm
  | fill key v => exact Option.or_none.symm

theorem value?_options_apply (key : String) : (form.apply change).options.value? key =
    (Entries.value? change.overriding.reverse key).or
      ((form.options.value? key).or (change.filling.value? key)) := by
  cases change with
  | offerType type =>
    rw [apply, options_offerType]
    exact Option.or_none.symm
  | merge options =>
    rw [apply, Entries.value?_putAll]
    exact congrArg _ Option.or_none.symm
  | set key' v =>
    rw [apply, Entries.value?_put]
    exact congrArg _ Option.or_none.symm
  | fill key' v => exact Entries.value?_putNew form.options key' v key

theorem names_options_apply {written : List String}
    (h : form.options.names = written.eraseDups) :
    (form.apply change).options.names = (written ++ change.keys).eraseDups := by
  cases change with
  | offerType type =>
    rw [apply, options_offerType, h]
    exact congrArg _ (List.append_nil _).symm
  | merge options =>
    have hkeys : (Change.merge options).keys = Entries.names options := List.append_nil _
    rw [hkeys]
    exact Entries.names_putAll_written h options
  | set key v => exact Entries.names_put_written h key v
  | fill key v => exact Entries.names_putNew_written h key v

theorem type?_applyAll :
    (form.applyAll changes).type? = form.type?.or (changes.findSome? Change.offered?) := by
  induction changes generalizing form with
  | nil => exact Option.or_none.symm
  | cons change changes ih =>
    rw [applyAll_cons, ih, type?_apply, Option.or_assoc, List.findSome?_cons]
    cases change.offered? <;> rfl

theorem value?_options_applyAll (key : String) : (form.applyAll changes).options.value? key =
    (Entries.value? (changes.flatMap Change.overriding).reverse key).or
      ((form.options.value? key).or (Entries.value? (changes.flatMap Change.filling) key)) := by
  induction changes generalizing form with
  | nil => exact Option.or_none.symm
  | cons change changes ih =>
    -- What overrides later is found before this change, and what fills later is found after it.
    rw [applyAll_cons, ih, value?_options_apply, List.flatMap_cons, List.flatMap_cons,
      List.reverse_append, Entries.value?_append, Entries.value?_append]
    simp only [Option.or_assoc]

theorem names_options_applyAll {written : List String}
    (h : form.options.names = written.eraseDups) :
    (form.applyAll changes).options.names = (written ++ changes.flatMap Change.keys).eraseDups := by
  induction changes generalizing form written with
  | nil => rwa [applyAll_nil, List.flatMap_nil, List.append_nil]
  | cons change changes ih =>
    rw [applyAll_cons, ih _ (names_options_apply form change h), List.append_assoc,
      List.flatMap_cons]

end Form

namespace Guesser

/-- A guesser that works by changes alone. One of its own kind may choose them by all that it
sees. -/
inductive Step where
  | source (s : Source)
  | custom (changes : Comparison → Schema.Field → Form → List Form.Change)

namespace Step

/-- The changes that a step makes to a form, in their order. -/
def changes (c : Comparison) (f : Schema.Field) (form : Form) : Step → List Form.Change
  | .source s => s.changes c f
  | .custom changes => changes c f form

def guesser : Step → Guesser
  | .source s => ofSource s
  | .custom changes => ⟨"custom", fun c f form => form.applyAll (changes c f form)⟩

theorem guess_guesser (step : Step) (c : Comparison) (f : Schema.Field) (form : Form) :
    step.guesser.guess c f form = form.applyAll (step.changes c f form) := by
  cases step <;> rfl

end Step

namespace Chain

/-- The changes of a whole run. What a step makes of the form, the next one sees. -/
def trace (c : Comparison) (f : Schema.Field) : Form → List Step → List Form.Change
  | _, [] => []
  | form, step :: steps =>
    step.changes c f form ++ trace c f (form.applyAll (step.changes c f form)) steps

theorem refine_steps (steps : List Step) (c : Comparison) (f : Schema.Field) (form : Form) :
    refine (steps.map Step.guesser) c f form = form.applyAll (trace c f form steps) := by
  induction steps generalizing form with
  | nil => rfl
  | cons step steps ih =>
    rw [trace, Form.applyAll_append, ← ih, ← Step.guess_guesser]
    rfl

/-- The form of a comparison has the type that the run offers first. An option has the last value
that the run sets it to, or the first default for it where it is never set; the run writes all
options there are, and they stand in the order in which it first writes them. -/
theorem form_of_trace (steps : List Step) (c : Comparison) (f : Schema.Field) :
    let form := run (steps.map Step.guesser) c f
    let changes := trace c f {} steps
    form.type? = changes.findSome? Form.Change.offered? ∧
      (∀ key, form.options.value? key =
        (Entries.value? (changes.flatMap Form.Change.overriding).reverse key).or
          (Entries.value? (changes.flatMap Form.Change.filling) key)) ∧
      (∀ key, form.options.value? key = none ↔ key ∉ changes.flatMap Form.Change.keys) ∧
      form.options.names = (changes.flatMap Form.Change.keys).eraseDups := by
  intro form changes
  have hform : form = Form.applyAll {} changes := refine_steps steps c f {}
  have hnames : form.options.names = (changes.flatMap Form.Change.keys).eraseDups := by
    have hempty : Entries.names ({} : Form).options = List.eraseDups [] := rfl
    rw [hform, Form.names_options_applyAll {} changes hempty, List.nil_append]
  refine ⟨?_, fun key => ?_, fun key => ?_, hnames⟩
  · rw [hform, Form.type?_applyAll, Option.none_or]
  · rw [hform, Form.value?_options_applyAll, Entries.value?_nil, Option.none_or]
  · rw [Entries.value?_eq_none_iff, hnames, List.mem_eraseDups]

section Standard

variable (c : Comparison) (f : Schema.Field)

theorem run_standard : standard.run c f =
    Form.applyAll {} (declaredChanges f ++ (operatorChanges c.operator ++ typeChanges f)) := by
  rw [run, standard, refine_ofSources]
  simp [Source.changes]

/-- The standard guessers show the declared control, else a box to check for a test without a value,
else the control of the type. -/
theorem type?_run_standard : (standard.run c f).type? =
    some (f.formType.getD
      (if c.operator.shape = .none then "checkbox" else typeControl f.type)) := by
  rw [run_standard, Form.type?_applyAll, Option.none_or, List.findSome?_append,
    List.findSome?_append]
  have htype : (typeChanges f).findSome? Form.Change.offered? = some (typeControl f.type) := rfl
  rw [htype, declaredChanges]
  cases f.formType with
  | some type => rfl
  | none => cases c.operator <;> rfl

/-- Of the standard guessers, what the operator implies counts before what is declared, which counts
before what the type suggests. -/
theorem value?_options_run_standard (key : String) : (standard.run c f).options.value? key =
    (Entries.value? ((operatorChanges c.operator).flatMap Form.Change.overriding) key).or
      ((Entries.value? f.formOptions.reverse key).or
        (Entries.value? ((typeChanges f).flatMap Form.Change.filling) key)) := by
  have hdeclared : (declaredChanges f).flatMap Form.Change.overriding = f.formOptions ∧
      (declaredChanges f).flatMap Form.Change.filling = [] := by
    cases hform : f.formType <;> simp [declaredChanges, hform, Form.Change.overriding,
      Form.Change.filling]
  have htype : (typeChanges f).flatMap Form.Change.overriding = [] := by
    cases htype : f.type <;> simp [typeChanges, htype, Form.Change.overriding]
  have hop : ((operatorChanges c.operator).flatMap Form.Change.overriding).reverse =
      (operatorChanges c.operator).flatMap Form.Change.overriding ∧
      (operatorChanges c.operator).flatMap Form.Change.filling = [] := by
    cases c.operator <;> exact ⟨rfl, rfl⟩
  rw [run_standard, Form.value?_options_applyAll, Entries.value?_nil, Option.none_or]
  simp only [List.flatMap_append, hdeclared, htype, hop, List.append_nil, List.nil_append,
    List.reverse_append, Entries.value?_append, Option.or_assoc]

/-- What a schema declares for the option is overridden in its place. -/
example :
    (standard.run ⟨"status", .oneOf, .list [.string "open"]⟩
      { name := "status", type := .choice, choices := ["open", "done"],
        formOptions := [("multiple", .bool false)] }).members =
    [("type", .string "choice"),
      ("options", .object
        [("multiple", .bool true), ("choices", .array [.string "open", .string "done"])])] := by
  rfl

end Standard

end Chain

end Guesser

end RuleFilter
