import RuleFilter.Proofs.Text.Class
import RuleFilter.Proofs.Text.Run

/-!
Reading of texts from the left. What is read in front of any text that cannot change it can be put
together part by part.
-/

namespace RuleFilter

/-- A way of reading texts, with a count of what stands before them. -/
abbrev TextReader (α : Type) := Nat → List Char → List α → Prop

namespace TextReader

variable {α : Type} {reads : TextReader α} {n m l : Nat} {cs ds : List Char} {out outs : List α}

/-- Whether a character can make a word, a number or a quoted text before it longer. -/
def mayExtend (c : Char) : Bool := Text.isFieldPart c || c == '\''

/-- The text is read as `out` in front of any text that does not extend it. -/
def Spans (reads : TextReader α) (n m : Nat) (cs : List Char) (out : List α) : Prop :=
  ∀ rest outs, Text.Stops mayExtend rest → reads m rest outs → reads n (cs ++ rest) (out ++ outs)

theorem Spans.append (h : Spans reads n m cs out) (h' : Spans reads m l ds outs)
    (hstop : Text.Stops mayExtend ds) : Spans reads n l (cs ++ ds) (out ++ outs) := by
  intro rest outs' hrest hreads
  rw [List.append_assoc, List.append_assoc]
  exact h _ _ (hstop.append hrest) (h' rest outs' hrest hreads)

theorem stops_isFieldPart (h : Text.Stops mayExtend cs) : Text.Stops Text.isFieldPart cs :=
  h.mono fun _ hc => by simp [mayExtend, hc]

theorem stops_isDigit (h : Text.Stops mayExtend cs) : Text.Stops Char.isDigit cs :=
  (stops_isFieldPart h).mono fun _ hc => Text.isFieldPart_of_isDigit hc

section Supplies

variable {β : Type} {b : β} {bs bs' supply : List β}

/-- What stands at the front of a supply after its first `n` members comes next. -/
theorem getElem?_of_prefix_drop (h : b :: bs <+: supply.drop n) : supply[n]? = some b := by
  obtain ⟨after, hafter⟩ := h
  have hget : (supply.drop n)[0]? = some b := by rw [← hafter]; rfl
  rwa [List.getElem?_drop, Nat.add_zero] at hget

theorem prefix_drop_of_append (h : bs ++ bs' <+: supply.drop n) :
    bs' <+: supply.drop (n + bs.length) := by
  obtain ⟨after, hafter⟩ := h
  exact ⟨after, by rw [← List.drop_drop, ← hafter]; simp⟩

end Supplies

end TextReader

end RuleFilter
