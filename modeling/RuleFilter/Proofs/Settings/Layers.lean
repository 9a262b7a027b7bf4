import Mathlib
import RuleFilter.Proofs.Settings.Document
import RuleFilter.Settings.Basic

/-!
Settings from layers. Each setting is resolved on its own, by the first that gives it among the
command line, the file named there or else that of the working directory, and the file of the home
directory. Loading then fails for the values alone.
-/

namespace RuleFilter.Settings

open Json

variable {h : Host} {a : Arguments} {path : String} {overlay profile : Option Written}

/-- The document at a path, which is well formed, or none where there is no file. -/
inductive Holds (h : Host) (path : String) : Option Written → Prop
  | absent : h.isPresent path = false → Holds h path none
  | document {text : String} {w : Written} {d : Document} : h.text? path = some text →
      Written.read? text = some w → Document.ofWritten? w = some d → Holds h path (some w)

/-- The document over that of the home directory: at the path given on the command line, where there
has to be one, or else in the working directory. -/
inductive Overlays (h : Host) : Option String → Option Written → Prop
  | named {file : String} {w : Written} :
      Holds h (h.expand file) (some w) → Overlays h (some file) (some w)
  | directory {document : Option Written} :
      Holds h fileName document → Overlays h none document

/-- The document of the home directory, if that directory is known. -/
inductive Profiles (h : Host) : Option Written → Prop
  | unknown : homeFile? h = none → Profiles h none
  | home {path : String} {document : Option Written} : homeFile? h = some path →
      Holds h path document → Profiles h document

theorem isPresent_of_text? {text : String} (ht : h.text? path = some text) :
    h.isPresent path = true := by
  rw [Host.text?] at ht
  rw [Host.isPresent]
  split at ht
  · next hnode => rw [hnode]; rfl
  · cases ht

theorem Holds.isPresent {w : Written} (hw : Holds h path (some w)) : h.isPresent path = true := by
  cases hw with
  | document ht => exact isPresent_of_text? ht

theorem Holds.readOptional {document : Option Written} (hd : Holds h path document) :
    ∃ d, readOptional h (if h.isPresent path then some path else none) = .ok d ∧
      d.layer.ReadOf document := by
  cases hd with
  | absent habsent =>
    rw [habsent]
    exact ⟨⟨{}, []⟩, rfl, Layer.readOf_none⟩
  | @document text w d ht hw hdocument =>
    refine ⟨d, ?_, Document.readOf_of_ofWritten? hdocument⟩
    rw [if_pos (isPresent_of_text? ht), Settings.readOptional, readFile, ht]
    simp only [Document.ofText?, hw, Option.bind_some, hdocument]

theorem Overlays.readOptional (ho : Overlays h a.file overlay) :
    ∃ d, (overlayPath? h a.file).bind (readOptional h) = .ok d ∧ d.layer.ReadOf overlay := by
  cases hfile : a.file with
  | none =>
    rw [hfile] at ho
    cases ho with
    | directory hd => exact hd.readOptional
  | some file =>
    rw [hfile] at ho
    cases ho with
    | named hd =>
      obtain ⟨d, hread, hlayer⟩ := hd.readOptional
      rw [if_pos hd.isPresent] at hread
      refine ⟨d, ?_, hlayer⟩
      rw [overlayPath?, if_pos hd.isPresent]
      exact hread

theorem Profiles.readOptional (hp : Profiles h profile) :
    ∃ d, Settings.readOptional h (homePath? h) = .ok d ∧ d.layer.ReadOf profile := by
  cases hp with
  | unknown hunknown =>
    rw [homePath?, hunknown]
    exact ⟨⟨{}, []⟩, rfl, Layer.readOf_none⟩
  | home hpath hd =>
    rw [homePath?, hpath]
    exact hd.readOptional

/-- Resolved settings that loading refuses. -/
def IsRefused (s : Settings) : Prop :=
  s.limits.size = 0 ∨ s.limits.depth = 0 ∨ s.limits.conditions = 0 ∨
    s.tableAlias ≠ "" ∧ ¬ Sql.isIdentifier s.tableAlias

theorem check_cases (s : Settings) :
    s.IsRefused ∧ (∃ e, s.check = .error e) ∨ ¬ s.IsRefused ∧ s.check = .ok s := by
  rw [check, IsRefused]
  split
  · next hsize => exact .inl ⟨.inl hsize, _, rfl⟩
  · next hsize =>
    split
    · next hdepth => exact .inl ⟨.inr (.inl hdepth), _, rfl⟩
    · next hdepth =>
      split
      · next hconditions => exact .inl ⟨.inr (.inr (.inl hconditions)), _, rfl⟩
      · next hconditions =>
        split
        · next halias => exact .inl ⟨.inr (.inr (.inr halias)), _, rfl⟩
        · next halias =>
          rw [not_or, not_or, not_or]
          exact .inr ⟨⟨hsize, hdepth, hconditions, halias⟩, rfl⟩

/-- Where the documents that are read are well formed, loading resolves every setting by itself: to
what the command line gives for it, or else the first document that gives it, the overlay before
that of the home directory. Only paths of documents are expanded. Loading fails just when a limit
comes out as zero, or the table alias as a text that is neither empty nor an identifier. -/
theorem load_of_layers (hoverlay : Overlays h a.file overlay)
    (hprofile : Profiles h profile) :
    let documents := overlay.toList ++ profile.toList
    let default : Settings := {}
    let s : Settings :=
      { limits :=
          ⟨(a.layer.size.or (Setting.size.first? documents)).getD default.limits.size,
            (a.layer.depth.or (Setting.depth.first? documents)).getD default.limits.depth,
            (a.layer.conditions.or (Setting.conditions.first? documents)).getD
              default.limits.conditions⟩
        dialect := (a.layer.dialect.or (Setting.dialect.first? documents)).getD default.dialect
        tableAlias :=
          (a.layer.tableAlias.or (Setting.tableAlias.first? documents)).getD default.tableAlias
        schema := a.layer.schema.or ((Setting.schema.first? documents).map h.expand) }
    (s.IsRefused ↔ ∃ e, (load h a).2 = .error e) ∧ (¬ s.IsRefused → (load h a).2 = .ok s) := by
  intro documents default s
  obtain ⟨o, ho, hover⟩ := hoverlay.readOptional
  obtain ⟨p, hp, hprof⟩ := hprofile.readOptional
  have hs : resolve h a.layer (o.layer.orElse p.layer) = s := by
    simp only [s, documents, hover.size.first? hprof.size, hover.depth.first? hprof.depth,
      hover.conditions.first? hprof.conditions, hover.dialect.first? hprof.dialect,
      hover.tableAlias.first? hprof.tableAlias, hover.schema.first? hprof.schema]
    rfl
  have hload : (load h a).2 = s.check := by
    rw [load, hp]
    simp only [ho]
    rw [hs]
  rw [hload]
  rcases s.check_cases with ⟨hrefused, e, he⟩ | ⟨hrefused, hok⟩
  · exact ⟨iff_of_true hrefused ⟨e, he⟩, fun h => absurd hrefused h⟩
  · rw [hok]
    exact ⟨iff_of_false hrefused (fun ⟨_, he⟩ => nomatch he), fun _ => rfl⟩

/-- Names and texts in documents, written without escapes. -/
def pieces (s : String) : List Piece := s.toList.map .char

def homeText : String :=
  "\x7b\"limits\": \x7b\"max_depth\": 4, \"max_conditions\": 0\x7d, " ++
    "\"sql\": \x7b\"alias\": \"t\"\x7d, \"schema\": \x7b\"path\": \"~/ticket.json\"\x7d\x7d"

def homeDocument : Written :=
  .object
    [(pieces "limits", .object
        [(pieces "max_depth", .number ⟨false, ['4'], [], none⟩),
          (pieces "max_conditions", .number ⟨false, ['0'], [], none⟩)]),
      (pieces "sql", .object [(pieces "alias", .string (pieces "t"))]),
      (pieces "schema", .object [(pieces "path", .string (pieces "~/ticket.json"))])]

/-- A file that gives a limit in place of one of the file of the home directory, and otherwise null
only. -/
def teamText : String :=
  "\x7b\"limits\": \x7b\"max_depth\": null, \"max_conditions\": 10\x7d, \"sql\": null\x7d"

def teamDocument : Written :=
  .object
    [(pieces "limits", .object
        [(pieces "max_depth", .null),
          (pieces "max_conditions", .number ⟨false, ['1', '0'], [], none⟩)]),
      (pieces "sql", .null)]

def teamHost : Host where
  home := some "/home/ada"
  directory := some "/work"
  node? path :=
    if path = "/home/ada/.filterable/filterable.json" then some (.file homeText.toByteArray)
    else if path = "/home/ada/team.json" then some (.file teamText.toByteArray)
    else none

/-- The file is named by the command line, which also gives the dialect. -/
def teamArguments : Arguments where
  file := some "~/team.json"
  layer := { dialect := some .duckdb }

theorem profiles_home : Profiles teamHost (some homeDocument) := by
  have hpath : homeFile? teamHost = some "/home/ada/.filterable/filterable.json" := by cbv
  have hread : Written.read? homeText = some homeDocument := by cbv
  have hdocument : Document.ofWritten? homeDocument =
      some ⟨⟨none, some 4, some 0, none, some "t", some "~/ticket.json"⟩, []⟩ := by cbv
  exact .home hpath (.document (Host.text?_of_file rfl) hread hdocument)

theorem overlays_team : Overlays teamHost teamArguments.file (some teamDocument) := by
  have hpath : teamHost.expand "~/team.json" = "/home/ada/team.json" := by cbv
  have hread : Written.read? teamText = some teamDocument := by cbv
  have hdocument : Document.ofWritten? teamDocument =
      some ⟨⟨none, none, some 10, none, none, none⟩, []⟩ := by cbv
  refine .named ?_
  rw [hpath]
  exact .document (Host.text?_of_file rfl) hread hdocument

theorem load_team :
    Overlays teamHost teamArguments.file (some teamDocument) ∧
      Profiles teamHost (some homeDocument) ∧
      (load teamHost teamArguments).2 = .ok
        { limits := ⟨65536, 4, 10⟩, dialect := .duckdb, tableAlias := "t",
          schema := some "/home/ada/ticket.json" } := by
  refine ⟨overlays_team, profiles_home, ?_⟩
  have hload := (load_of_layers overlays_team profiles_home).2
  have hsize : Setting.size.first? [teamDocument, homeDocument] = none := by cbv
  have hdepth : Setting.depth.first? [teamDocument, homeDocument] = some 4 := by cbv
  have hconditions : Setting.conditions.first? [teamDocument, homeDocument] = some 10 := by cbv
  have halias : Setting.tableAlias.first? [teamDocument, homeDocument] = some "t" := by cbv
  have hschema : Setting.schema.first? [teamDocument, homeDocument] = some "~/ticket.json" := by
    cbv
  have hpath : teamHost.expand "~/ticket.json" = "/home/ada/ticket.json" := by cbv
  simp only [Option.toList_some, List.singleton_append, hsize, hdepth, hconditions, halias, hschema,
    Option.map_some, hpath] at hload
  have hidentifier : Sql.isIdentifier "t" := by decide
  exact hload (by simp [IsRefused, teamArguments, hidentifier])

end RuleFilter.Settings
