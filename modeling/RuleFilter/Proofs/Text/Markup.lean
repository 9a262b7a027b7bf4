import Mathlib.Data.List.Basic
import Mathlib.Logic.Function.Iterate
import RuleFilter.Text.Markup

/-!
Escaped text. It has none of the characters that open or close markup or end a quoted attribute, and
it is longer than the text it stands for unless there was nothing to escape.
-/

namespace RuleFilter.Text

/-- Whether text can neither open nor close markup nor end a quoted attribute. -/
def IsMarkupFree (s : String) : Prop := ∀ c ∈ s.toList, c ∉ ['<', '>', '"', '\'']

instance (s : String) : Decidable (IsMarkupFree s) :=
  inferInstanceAs (Decidable (∀ c ∈ s.toList, c ∉ ['<', '>', '"', '\'']))

theorem escapeChar_of_entity? {c : Char} (h : entity? c = none) : escapeChar c = [c] := by
  simp [escapeChar, h]

theorem one_lt_length_escapeChar {c : Char} (h : entity? c ≠ none) : 1 < (escapeChar c).length := by
  unfold escapeChar entity? at *
  split at h <;> simp_all

theorem not_mem_of_mem_escapeChar {c d : Char} (h : d ∈ escapeChar c) :
    d ∉ ['<', '>', '"', '\''] := by
  unfold escapeChar entity? at h
  split at h
  case h_6 =>
    rw [Option.elim_none, List.mem_singleton] at h
    subst h
    simp_all
  all_goals
    revert d
    simp

theorem isMarkupFree_escapeHtml (s : String) : IsMarkupFree (escapeHtml s) := by
  intro d hd
  rw [toList_escapeHtml, List.mem_flatMap] at hd
  obtain ⟨c, -, hd⟩ := hd
  exact not_mem_of_mem_escapeChar hd

theorem length_pos_escapeChar (c : Char) : 1 ≤ (escapeChar c).length := by
  by_cases h : entity? c = none
  · simp [escapeChar_of_entity? h]
  · exact Nat.le_of_lt (one_lt_length_escapeChar h)

theorem length_le_escape (cs : List Char) : cs.length ≤ (cs.flatMap escapeChar).length := by
  induction cs with
  | nil => exact Nat.le_refl 0
  | cons c cs ih =>
    have hc := length_pos_escapeChar c
    rw [List.flatMap_cons, List.length_append, List.length_cons]
    omega

theorem length_escape_le_iff {cs : List Char} :
    (cs.flatMap escapeChar).length ≤ cs.length ↔ ∀ c ∈ cs, entity? c = none := by
  induction cs with
  | nil => simp
  | cons c cs ih =>
    have hcs := length_le_escape cs
    rw [List.flatMap_cons, List.length_append, List.length_cons, List.forall_mem_cons, ← ih]
    by_cases h : entity? c = none
    · rw [escapeChar_of_entity? h, List.length_singleton]
      simp only [h, true_and]
      omega
    · have hc := one_lt_length_escapeChar h
      simp only [h, false_and, iff_false]
      omega

theorem escapeHtml_eq_self {s : String} (h : ∀ c ∈ s.toList, entity? c = none) :
    escapeHtml s = s := by
  rw [← String.toList_inj, toList_escapeHtml]
  exact (List.flatMap_congr fun c hc => escapeChar_of_entity? (h c hc)).trans (by simp)

theorem length_le_escapeHtml_iterate (n : Nat) (s : String) :
    s.length ≤ (escapeHtml^[n] s).length := by
  induction n with
  | zero => exact Nat.le_refl _
  | succ n ih =>
    rw [Function.iterate_succ_apply']
    refine Nat.le_trans ih ?_
    rw [← String.length_toList, ← String.length_toList, toList_escapeHtml]
    exact length_le_escape _

/-- Text that has something to escape never comes back, however often it is escaped. -/
theorem escapeHtml_iterate_eq_self_iff {n : Nat} (hn : n ≠ 0) {s : String} :
    escapeHtml^[n] s = s ↔ ∀ c ∈ s.toList, entity? c = none := by
  constructor
  · intro h
    obtain ⟨m, rfl⟩ := Nat.exists_eq_succ_of_ne_zero hn
    have hlength := length_le_escapeHtml_iterate m (escapeHtml s)
    rw [← Function.iterate_succ_apply, h] at hlength
    rw [← length_escape_le_iff, ← toList_escapeHtml, String.length_toList, String.length_toList]
    exact hlength
  · intro h
    exact Function.iterate_fixed (escapeHtml_eq_self h) n

end RuleFilter.Text
