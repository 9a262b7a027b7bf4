import RuleFilter.Proofs.Form.Precedence

/-!
Guessers that make the same changes whatever the form is. A chain of them comes to one list of
changes, which a second run makes once more. While that run is under way an option may go back to a
value that was overridden, but at its end every option has the value that it had before, and no key
has moved.
-/

namespace RuleFilter

namespace Form

variable (form : Form) (change : Change) (changes : List Change)

/-- The keys after a run are those before it and those that it writes. -/
theorem mem_names_options_applyAll {key : String} :
    key ∈ (form.applyAll changes).options.names ↔
      key ∈ form.options.names ∨ key ∈ changes.flatMap Change.keys := by
  have hkeys : key ∈ changes.flatMap Change.keys ↔
      key ∈ Entries.names (changes.flatMap Change.overriding) ∨
        key ∈ Entries.names (changes.flatMap Change.filling) := by
    simp only [Change.keys, Entries.names, List.map_flatMap, List.mem_flatMap, List.mem_append]
    rw [← exists_or]
    exact exists_congr fun _ => and_or_left
  rw [← not_iff_not, hkeys, ← Entries.value?_eq_none_iff, value?_options_applyAll,
    Option.or_eq_none_iff, Option.or_eq_none_iff, Entries.value?_eq_none_iff,
    Entries.value?_eq_none_iff, Entries.value?_eq_none_iff, Entries.names, List.map_reverse,
    List.mem_reverse, not_or, not_or]
  exact and_left_comm

theorem nodup_names_options_apply (h : form.options.names.Nodup) :
    (form.apply change).options.names.Nodup := by
  cases change with
  | offerType type => rwa [apply, options_offerType]
  | merge options => exact Entries.nodup_names_putAll h options
  | set key v => exact Entries.nodup_names_put h key v
  | fill key v => exact Entries.nodup_names_putNew h key v

theorem nodup_names_options_applyAll (h : form.options.names.Nodup) :
    (form.applyAll changes).options.names.Nodup := by
  induction changes generalizing form with
  | nil => exact h
  | cons change changes ih => exact ih _ (form.nodup_names_options_apply change h)

theorem names_options_apply_of_subset (h : change.keys ⊆ form.options.names) :
    (form.apply change).options.names = form.options.names := by
  rw [Change.keys, List.append_subset] at h
  cases change with
  | offerType type => rw [apply, options_offerType]
  | merge options => exact Entries.names_putAll_of_subset h.1
  | set key v => exact Entries.names_put_of_mem (List.cons_subset.1 h.1).1 v
  | fill key v => rw [apply, Entries.putNew_of_mem (List.cons_subset.1 h.2).1 v]

theorem names_options_applyAll_of_subset (h : changes.flatMap Change.keys ⊆ form.options.names) :
    (form.applyAll changes).options.names = form.options.names := by
  induction changes generalizing form with
  | nil => rfl
  | cons change changes ih =>
    rw [List.flatMap_cons, List.append_subset] at h
    have happly := form.names_options_apply_of_subset change h.1
    rw [applyAll_cons, ih _ (happly ▸ h.2), happly]

end Form

namespace Guesser

/-- A step that is a usual guesser, or that makes the same changes for every comparison, field and
form. -/
inductive Step.IsFixed : Step → Prop
  | source (s : Source) : IsFixed (.source s)
  | custom (changes : List Form.Change) : IsFixed (.custom fun _ _ _ => changes)

theorem Step.IsFixed.changes_eq {step : Step} (h : step.IsFixed) (c : Comparison) (f : Schema.Field)
    (form : Form) : step.changes c f form = step.changes c f {} := by
  cases h <;> rfl

namespace Chain

variable {steps : List Step}

section Run

variable (h : ∀ step ∈ steps, step.IsFixed) (c : Comparison) (f : Schema.Field) (form : Form)
include h

/-- The changes of a run of fixed steps are known before it. -/
theorem trace_eq_flatMap :
    trace c f form steps = steps.flatMap fun step => step.changes c f {} := by
  induction steps generalizing form with
  | nil => rfl
  | cons step steps ih =>
    rw [List.forall_mem_cons] at h
    rw [trace, ih h.2, h.1.changes_eq, List.flatMap_cons]

theorem refine_eq_applyAll : refine (steps.map Step.guesser) c f form =
    form.applyAll (steps.flatMap fun step => step.changes c f {}) := by
  rw [refine_steps, trace_eq_flatMap h]

end Run

/-- A chain of fixed steps that runs a second time, over what it made of a form, changes nothing:
the type, the value under each key and the order of the keys stay. Where no key repeats, that is the
whole form. -/
theorem refine_refine (h : ∀ step ∈ steps, step.IsFixed) (c : Comparison) (f : Schema.Field)
    (form : Form) :
    let once := refine (steps.map Step.guesser) c f form
    let twice := refine (steps.map Step.guesser) c f once
    twice.type? = once.type? ∧
      (∀ key, twice.options.value? key = once.options.value? key) ∧
      twice.options.names = once.options.names ∧
      (form.options.names.Nodup → twice = once) := by
  intro once twice
  let changes := steps.flatMap fun step => step.changes c f {}
  have honce : once = form.applyAll changes := refine_eq_applyAll h c f form
  have htwice : twice = once.applyAll changes := refine_eq_applyAll h c f once
  have htype : twice.type? = once.type? := by
    rw [htwice, Form.type?_applyAll, honce, Form.type?_applyAll, Option.or_assoc, Option.or_self]
  have hvalue : ∀ key, twice.options.value? key = once.options.value? key := by
    intro key
    rw [htwice, Form.value?_options_applyAll, honce, Form.value?_options_applyAll]
    rw [Option.or_assoc, Option.or_assoc, Option.or_self, ← Option.or_assoc, Option.or_self]
  have hnames : twice.options.names = once.options.names := by
    rw [htwice]
    refine Form.names_options_applyAll_of_subset once changes fun key hkey => ?_
    rw [honce, Form.mem_names_options_applyAll]
    exact .inr hkey
  refine ⟨htype, hvalue, hnames, fun hnodup => ?_⟩
  have hoptions : twice.options = once.options := by
    refine Entries.ext_of_nodup ?_ hnames hvalue
    rw [honce]
    exact Form.nodup_names_options_applyAll form changes hnodup
  exact congrArg₂ Form.mk htype hoptions

end Chain

section Volume

def volumeSteps : List Step :=
  [.custom fun _ _ _ => [.set "match" "prefix", .offerType "search"], .source .metadata,
    .source .operator, .custom fun _ _ _ => [.fill "match" "exact", .fill "label" "Volume"]]

def volumeField : Schema.Field where
  name := "volume"
  type := .string
  formType := some "text"
  formOptions := [("match", "suffix"), ("size", .integer 4)]

def volumeComparison : Comparison := ⟨"volume", .contains, .single (.string "12")⟩

/-- The form after one run over a form with a size. -/
def volumeForm : Form where
  type? := some "search"
  options := [("size", .integer 4), ("match", "contains"), ("label", "Volume")]

theorem isFixed_volumeSteps : ∀ step ∈ volumeSteps, step.IsFixed := by
  simp only [volumeSteps, List.forall_mem_cons]
  exact ⟨.custom _, .source _, .source _, .custom _, List.forall_mem_nil _⟩

theorem refine_refine_volume :
    let start : Form := { options := [("size", .integer 9)] }
    let chain : Chain := volumeSteps.map Step.guesser
    start.options.names.Nodup ∧ chain.refine volumeComparison volumeField start = volumeForm ∧
      chain.refine volumeComparison volumeField volumeForm = volumeForm := by
  intro start chain
  have hnodup : start.options.names.Nodup := by decide
  have honce : chain.refine volumeComparison volumeField start = volumeForm := by rfl
  obtain ⟨-, -, -, htwice⟩ :=
    Chain.refine_refine isFixed_volumeSteps volumeComparison volumeField start
  exact ⟨hnodup, honce, honce ▸ htwice hnodup⟩

end Volume

end Guesser

end RuleFilter
