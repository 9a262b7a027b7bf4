import RuleFilter.Proofs.Text.Class
import RuleFilter.Sql.Name

/-! Columns are words, with or without a table alias. -/

namespace RuleFilter

namespace Text

theorem isFieldPart_of_pieces {cs : List Char} (h : ∀ p ∈ pieces '.' cs, ∀ c ∈ p, isWordPart c) :
    ∀ c ∈ cs, isFieldPart c := by
  induction cs with
  | nil => simp
  | cons c cs ih =>
    rw [pieces] at h
    split at h
    · next hc =>
      have hrest := ih fun p hp => h p (by simp [hp])
      exact List.forall_mem_cons.2 ⟨by simp [isFieldPart, hc], hrest⟩
    · next hc =>
      split at h
      · next he => exact absurd he (pieces_ne_nil '.' cs)
      · next p ps he =>
        rw [List.forall_mem_cons, List.forall_mem_cons] at h
        have hrest := ih (by rw [he]; exact List.forall_mem_cons.2 ⟨h.1.2, h.2⟩)
        exact List.forall_mem_cons.2 ⟨by simp [isFieldPart, h.1.1], hrest⟩

theorem isWordPart_of_isIdentifier {cs : List Char} (h : isIdentifier cs) :
    ∀ c ∈ cs, isWordPart c := by
  cases cs with
  | nil => simp
  | cons d ds =>
    rw [isIdentifier, Bool.and_eq_true, List.all_eq_true] at h
    exact List.forall_mem_cons.2 ⟨isWordPart_of_isWordStart h.1, h.2⟩

end Text

namespace Sql

theorem isWord_of_isColumn {s : String} (h : isColumn s) : Text.isWord s.toList := by
  rw [isColumn, List.all_eq_true] at h
  have hparts := Text.isFieldPart_of_pieces fun p hp => Text.isWordPart_of_isIdentifier (h p hp)
  revert h hparts
  cases s.toList with
  | nil => simp [Text.pieces, Text.isIdentifier]
  | cons c cs =>
    intro h hparts
    rw [Text.isWord, Bool.and_eq_true, List.all_eq_true]
    refine ⟨?_, fun d hd => hparts d (List.mem_cons_of_mem c hd)⟩
    rw [Text.pieces] at h
    split at h
    · have := h [] (by simp)
      simp [Text.isIdentifier] at this
    · split at h
      · next he => exact absurd he (Text.pieces_ne_nil '.' cs)
      · next p ps he =>
        have := h (c :: p) (by simp)
        rw [Text.isIdentifier, Bool.and_eq_true] at this
        exact this.1

theorem qualify_empty (column : String) : qualify "" column = column := if_pos rfl

theorem isWord_qualify {tableAlias column : String}
    (halias : tableAlias = "" ∨ isIdentifier tableAlias) (hcolumn : isColumn column) :
    Text.isWord (qualify tableAlias column).toList := by
  have hword := isWord_of_isColumn hcolumn
  rw [qualify]
  split
  · exact hword
  · next hne =>
    have hid : Text.isIdentifier tableAlias.toList := halias.resolve_left hne
    have hparts := Text.isFieldPart_of_isWord hword
    simp only [String.toList_append]
    revert hid
    cases tableAlias.toList with
    | nil => simp [Text.isIdentifier]
    | cons c cs =>
      intro hid
      rw [Text.isIdentifier, Bool.and_eq_true, List.all_eq_true] at hid
      have hcs : ∀ d ∈ cs, Text.isFieldPart d := fun d hd => by
        simp [Text.isFieldPart, hid.2 d hd]
      simp only [List.cons_append, Text.isWord, Bool.and_eq_true, List.all_eq_true,
        List.mem_append]
      refine ⟨hid.1, ?_⟩
      rintro d ((hd | hd) | hd)
      · exact hcs d hd
      · have : d = '.' := by simpa using hd
        simp [Text.isFieldPart, this]
      · exact hparts d hd

end Sql

end RuleFilter
