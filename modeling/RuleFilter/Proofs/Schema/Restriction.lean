import RuleFilter.Proofs.Form.Fixed
import RuleFilter.Proofs.Rule.Compile
import RuleFilter.Proofs.Schema.Index

/-!
Restricted schemas. A schema that has fewer fields than another one, with fewer operators or without
null, refuses more rules, but what it does not refuse it compiles as the other one does.
-/

namespace RuleFilter

namespace Schema

/-- A field that allows no more operators than another one, and null only where the other one does.
In all else that a rule can depend on the two are the same. -/
structure Field.Restricts (f g : Field) : Prop where
  name : f.name = g.name
  column : f.column = g.column
  type : f.type = g.type
  choices : f.choices = g.choices
  formType : f.formType = g.formType
  formOptions : f.formOptions = g.formOptions
  supports : ∀ op, f.supports op → g.supports op
  nullable : f.nullable → g.nullable

/-- A schema whose fields all restrict fields of another one. -/
def Restricts (s s' : Schema) : Prop := ∀ f ∈ s.fields, ∃ g ∈ s'.fields, f.Restricts g

namespace Field.Restricts

variable {f g : Field}

theorem refl (f : Field) : f.Restricts f := ⟨rfl, rfl, rfl, rfl, rfl, rfl, fun _ => id, id⟩

theorem takes [Formats] (h : f.Restricts g) {v : Value} (hv : f.Takes v) : g.Takes v := by
  cases hv with
  | string htype => exact .string (h.type ▸ htype)
  | integer htype hx hle => exact .integer (h.type ▸ htype) hx hle
  | float htype => exact .float (h.type ▸ htype)
  | boolean htype => exact .boolean (h.type ▸ htype)
  | datetime htype hs => exact .datetime (h.type ▸ htype) hs
  | uuid htype hs => exact .uuid (h.type ▸ htype) hs
  | choice htype hs => exact .choice (h.type ▸ htype) (h.choices ▸ hs)

theorem checkValue [Formats] (h : f.Restricts g) {op : Operator} {v : Value}
    (hv : f.checkValue op v = .ok ()) : g.checkValue op v = .ok () := by
  rw [checkValue_eq_ok_iff] at hv ⊢
  obtain ⟨hnull, hop, hnullable⟩ | hv := hv
  · exact .inl ⟨hnull, hop, h.nullable hnullable⟩
  · exact .inr (h.takes hv)

theorem check [Formats] (h : f.Restricts g) {c : Comparison} (hc : f.check c = .ok ()) :
    g.check c = .ok () := by
  rw [check_eq_ok_iff] at hc ⊢
  obtain ⟨hcolumn, hsupports, hnull, hshape, hvalues⟩ := hc
  exact ⟨h.column ▸ hcolumn, h.supports _ hsupports, fun htest => h.nullable (hnull htest), hshape,
    fun v hv => h.checkValue (hvalues v hv)⟩

theorem sourceChanges_eq (h : f.Restricts g) (source : Guesser.Source) (c : Comparison) :
    source.changes c f = source.changes c g := by
  cases source with
  | metadata =>
    rw [Guesser.Source.changes, Guesser.Source.changes, Guesser.declaredChanges,
      Guesser.declaredChanges, h.formType, h.formOptions]
  | operator => rfl
  | fieldType =>
    rw [Guesser.Source.changes, Guesser.Source.changes, Guesser.typeChanges, Guesser.typeChanges,
      h.type, h.choices]
  | fixed change => rfl

theorem stepChanges_eq (h : f.Restricts g) {step : Guesser.Step} (hstep : step.IsFixed)
    (c : Comparison) (form : Form) : step.changes c f form = step.changes c g form := by
  cases hstep with
  | source source => exact h.sourceChanges_eq source c
  | custom changes => rfl

/-- Fixed steps do not tell a field from one that it restricts. -/
theorem run_eq (h : f.Restricts g) {steps : List Guesser.Step}
    (hsteps : ∀ step ∈ steps, step.IsFixed) (c : Comparison) :
    Guesser.Chain.run (steps.map Guesser.Step.guesser) c f =
      Guesser.Chain.run (steps.map Guesser.Step.guesser) c g := by
  rw [Guesser.Chain.run, Guesser.Chain.run, Guesser.Chain.refine_eq_applyAll hsteps,
    Guesser.Chain.refine_eq_applyAll hsteps]
  refine congrArg _ (List.flatMap_congr fun step hstep => ?_)
  exact h.stepChanges_eq (hsteps step hstep) c {}

end Field.Restricts

end Schema

section Sources

variable {source source' : FieldSource} {steps : List Guesser.Step}
  (hsource : ∀ name f, source name = some f → ∃ g, source' name = some g ∧ f.Restricts g)
  (hsteps : ∀ step ∈ steps, step.IsFixed)
include hsource hsteps

theorem Comparison.compile_of_forall_restricts [Formats] {c : Comparison} {e : Condition}
    (h : c.compile source (steps.map Guesser.Step.guesser) = .ok e) :
    c.compile source' (steps.map Guesser.Step.guesser) = .ok e := by
  rw [compile_eq_ok_iff] at h ⊢
  obtain ⟨f, hf, hcheck, rfl⟩ := h
  obtain ⟨g, hg, hrestricts⟩ := hsource c.field f hf
  refine ⟨g, hg, hrestricts.check hcheck, ?_⟩
  rw [hrestricts.column, hrestricts.type, hrestricts.run_eq hsteps]

theorem Rule.compile_of_forall_restricts [Formats] {r : Rule} {p : Predicate}
    (h : r.compile source (steps.map Guesser.Step.guesser) = .ok p) :
    r.compile source' (steps.map Guesser.Step.guesser) = .ok p := by
  induction r using Rule.induct generalizing p with
  | leaf c =>
    obtain ⟨e, he, rfl⟩ := compile_leaf_eq_ok_iff.1 h
    exact compile_leaf_eq_ok_iff.2
      ⟨e, Comparison.compile_of_forall_restricts hsource hsteps he, rfl⟩
  | group k rs ih =>
    obtain ⟨hne, ps, rfl, hps⟩ := compile_group_eq_ok_iff.1 h
    refine compile_group_eq_ok_iff.2 ⟨hne, ps, rfl, ?_⟩
    clear h hne
    induction hps with
    | nil => exact .nil
    | cons hp _ ih' =>
      rw [List.forall_mem_cons] at ih
      exact .cons (ih.1 hp) (ih' ih.2)

end Sources

namespace Schema

variable {s s' : Schema}

theorem Restricts.exists_field? (h : s.Restricts s') (hs : s.Indexed) (hs' : s'.Indexed)
    (name : String) (f : Field) (hf : s.field? name = some f) :
    ∃ g, s'.field? name = some g ∧ f.Restricts g := by
  obtain ⟨hmem, rfl⟩ := hs.field?_eq_some_iff.1 hf
  obtain ⟨g, hg, hrestricts⟩ := h f hmem
  exact ⟨g, hs'.field?_eq_some_iff.2 ⟨hg, hrestricts.name.symm⟩, hrestricts⟩

/-- Fields of other names leave the field of a name as it is. -/
theorem field?_foldl_put_of_apart (hs : s.Indexed) {added : List Field}
    (hadded : ∀ f ∈ added, f.name ∉ s.fields.map Field.name) {name : String} {f : Field}
    (hf : s.field? name = some f) : (added.foldl put s).field? name = some f := by
  obtain ⟨hmem, rfl⟩ := hs.field?_eq_some_iff.1 hf
  have hnone : added.reverse.find? (·.name == f.name) = none := by
    rw [List.find?_eq_none]
    intro g hg hname
    refine hadded g (List.mem_reverse.1 hg) ?_
    rw [beq_iff_eq.1 hname]
    exact List.mem_map_of_mem hmem
  rw [field?_foldl_put hs, hnone, Option.none_or, hf]

end Schema

namespace Rule

/-- What compiles against a schema compiles to the same predicate against every schema that it
restricts, and fields of other names make no difference either. -/
theorem compile_of_restricts [Formats] (entity entity' : String) (puts puts' : List Schema.Field)
    {steps : List Guesser.Step} (hsteps : ∀ step ∈ steps, step.IsFixed) {r : Rule}
    {p : Predicate} :
    let s := puts.foldl Schema.put { entity }
    let s' := puts'.foldl Schema.put { entity := entity' }
    let chain : Guesser.Chain := steps.map Guesser.Step.guesser
    r.compile s.field? chain = .ok p →
      (s.Restricts s' → r.compile s'.field? chain = .ok p) ∧
        ∀ added : List Schema.Field,
          (∀ f ∈ added, f.name ∉ s.fields.map Schema.Field.name) →
            r.compile (added.foldl Schema.put s).field? chain = .ok p := by
  intro s s' chain h
  have hs : s.Indexed := (Schema.indexed_empty entity).foldl_put puts
  have hs' : s'.Indexed := (Schema.indexed_empty entity').foldl_put puts'
  constructor
  · intro hrestricts
    exact compile_of_forall_restricts (hrestricts.exists_field? hs hs') hsteps h
  · intro added hadded
    refine compile_of_forall_restricts (fun name f hf => ?_) hsteps h
    exact ⟨f, Schema.field?_foldl_put_of_apart hs hadded hf, .refl f⟩

section Visit

/-- A field that only one operator tests, and never for null. -/
def stageField : Schema.Field where
  name := "stage"
  type := .choice
  nullable := false
  operators? := some [.oneOf]
  choices := ["open", "done"]
  formOptions := [("expanded", .bool true)]

/-- The same field with the operators of its type and with null. -/
def wideStageField : Schema.Field := { stageField with nullable := true, operators? := none }

def visitField : Schema.Field where
  name := "visit"
  type := .datetime
  column? := some "visits.at"

def stageRule : Rule :=
  .group .or [.leaf ⟨"stage", .oneOf, .list [.string "open", .string "done"]⟩]

def stageSteps : List Guesser.Step :=
  [.source .metadata, .custom fun _ _ _ => [.fill "label" "Stage"], .source .fieldType]

def stagePredicate : Predicate :=
  .any [.condition ⟨"stage", "stage", .choice, .oneOf, .list [.string "open", .string "done"],
    ⟨some "choice", [("expanded", .bool true), ("label", "Stage"),
      ("choices", .array [.string "open", .string "done"])]⟩⟩]

theorem compile_stageRule :
    stageRule.compile (Schema.put { entity := "stage" } stageField).field?
      (stageSteps.map Guesser.Step.guesser) = .ok stagePredicate := by
  refine compile_group_eq_ok_iff.2 ⟨by simp, _, rfl, .cons ?_ .nil⟩
  exact compile_leaf_of_check rfl (by decide) rfl

theorem isFixed_stageSteps : ∀ step ∈ stageSteps, step.IsFixed := by
  simp only [stageSteps, List.forall_mem_cons]
  exact ⟨.source _, .custom _, .source _, List.forall_mem_nil _⟩

theorem restricts_stage : (Schema.put { entity := "stage" } stageField).Restricts
    ([visitField, wideStageField].foldl Schema.put { entity := "visit" }) := by
  have hoperators : ∀ op ∈ stageField.operators, op ∈ wideStageField.operators := by decide
  have hfield : stageField.Restricts wideStageField := by
    refine ⟨rfl, rfl, rfl, rfl, rfl, rfl, fun op hop => ?_, fun _ => rfl⟩
    simp only [Schema.Field.supports, List.contains_iff_mem] at hop ⊢
    exact hoperators op hop
  intro f hf
  obtain rfl : f = stageField := List.mem_singleton.1 hf
  exact ⟨wideStageField, .tail _ (.head _), hfield⟩

theorem compile_of_restricts_stage :
    let s := [stageField].foldl Schema.put { entity := "stage" }
    let s' := [visitField, wideStageField].foldl Schema.put { entity := "visit" }
    let chain : Guesser.Chain := stageSteps.map Guesser.Step.guesser
    s.Restricts s' ∧ stageRule.compile s.field? chain = .ok stagePredicate ∧
      stageRule.compile s'.field? chain = .ok stagePredicate ∧
      stageRule.compile ([visitField].foldl Schema.put s).field? chain = .ok stagePredicate := by
  obtain ⟨hrestricts, hadded⟩ := compile_of_restricts "stage" "visit" [stageField]
    [visitField, wideStageField] isFixed_stageSteps compile_stageRule
  exact ⟨restricts_stage, compile_stageRule, hrestricts restricts_stage,
    hadded [visitField] (by decide)⟩

end Visit

end Rule

end RuleFilter
