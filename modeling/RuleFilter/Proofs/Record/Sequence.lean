import RuleFilter.Proofs.Text.Replace
import RuleFilter.Record.Hook

/-!
Names of sequences. The lead and the field that a name is made of can be read back from it: a
backslash stands before every backslash and colon of the lead, so that the first colon without one
ends it, whatever the field looks like. Names are therefore equal only where both parts are.
-/

namespace RuleFilter

namespace Hook

variable {lead lead' field field' : String}

/-- Backslashes are replaced before colons, so that those put before a colon are not doubled. -/
theorem flatMap_escapeColon (cs : List Char) : cs.flatMap escapeColon =
    Text.replaceChar ':' ['\\', ':'] (Text.replaceChar '\\' ['\\', '\\'] cs) := by
  rw [Text.replaceChar_escape '\\', Text.replaceChar_flatMap_escape (by decide) (by decide)]
  rfl

/-- The lead and the field of a name: what a backslash stands before belongs to the lead, and the
first colon that is left ends it. -/
def readName : List Char → Option (List Char × List Char)
  | ':' :: field => some ([], field)
  | '\\' :: c :: name => (readName name).map (Prod.map (c :: ·) id)
  | c :: name => (readName name).map (Prod.map (c :: ·) id)
  | [] => none

theorem readName_escapeColon (c : Char) (name : List Char) :
    readName (escapeColon c ++ name) = (readName name).map (Prod.map (c :: ·) id) := by
  rw [escapeColon]
  by_cases hslash : c = '\\'
  · subst hslash
    rfl
  · by_cases hcolon : c = ':'
    · subst hcolon
      rfl
    · simp [readName, hslash, hcolon]

theorem readName_flatMap_escapeColon (lead field : List Char) :
    readName (lead.flatMap escapeColon ++ ':' :: field) = some (lead, field) := by
  induction lead with
  | nil => rfl
  | cons c lead ih =>
    rw [List.flatMap_cons, List.append_assoc, readName_escapeColon, ih]
    rfl

theorem readName_sequenceName (lead field : String) :
    readName (sequenceName lead field).toList = some (lead.toList, field.toList) := by
  rw [sequenceName, String.toList_ofList, readName_flatMap_escapeColon]

theorem eq_of_sequenceName_eq (h : sequenceName lead field = sequenceName lead' field') :
    lead = lead' ∧ field = field' := by
  have hread := readName_sequenceName lead field
  rw [h, readName_sequenceName, Option.some.injEq, Prod.mk.injEq] at hread
  exact hread.imp (fun hlead => (String.toList_injective hlead).symm)
    (fun hfield => (String.toList_injective hfield).symm)

/-- A name is the lead with its backslashes and then its colons escaped, a colon and the field. It
tells both: names are equal just where leads and fields are. -/
theorem sequenceName_eq_iff (lead lead' field field' : String) :
    (sequenceName lead field).toList = Text.replaceChar ':' ['\\', ':']
        (Text.replaceChar '\\' ['\\', '\\'] lead.toList) ++ ':' :: field.toList ∧
      (sequenceName lead field = sequenceName lead' field' ↔ lead = lead' ∧ field = field') := by
  constructor
  · rw [sequenceName, String.toList_ofList, flatMap_escapeColon]
  · constructor
    · intro h
      exact eq_of_sequenceName_eq h
    · rintro ⟨rfl, rfl⟩
      rfl

/-- The same characters, cut at different places. -/
example : sequenceName "A:" "b" = "A\\::b" ∧ sequenceName "A" ":b" = "A::b" := by decide

end Hook

end RuleFilter
