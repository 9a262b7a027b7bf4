/-! Blank characters, the property White_Space of the Unicode standard, and trimming by it. -/

namespace RuleFilter.Text

def isBlank (c : Char) : Bool :=
  let n := c.toNat
  (0x09 ≤ n && n ≤ 0x0D) || n == 0x20 || n == 0x85 || n == 0xA0 || n == 0x1680 ||
    (0x2000 ≤ n && n ≤ 0x200A) || n == 0x2028 || n == 0x2029 || n == 0x202F || n == 0x205F ||
    n == 0x3000

def trimStart (cs : List Char) : List Char := cs.dropWhile isBlank

/-- Drops the blanks at the end; a blank that something follows stays. -/
def trimEnd : List Char → List Char
  | [] => []
  | c :: cs =>
    match trimEnd cs with
    | [] => if isBlank c then [] else [c]
    | d :: ds => c :: d :: ds

def trim (cs : List Char) : List Char := trimEnd (trimStart cs)

theorem trimEnd_cons (c : Char) (cs : List Char) :
    trimEnd (c :: cs) = if trimEnd cs = [] ∧ isBlank c then [] else c :: trimEnd cs := by
  rw [trimEnd]
  cases trimEnd cs <;> by_cases h : isBlank c <;> simp [h]

/-- Every text is its trimmed form followed by blanks. -/
theorem trimEnd_append_blanks (cs : List Char) :
    ∃ blanks, cs = trimEnd cs ++ blanks ∧ ∀ c ∈ blanks, isBlank c := by
  induction cs with
  | nil => exact ⟨[], by simp [trimEnd]⟩
  | cons c cs ih =>
    obtain ⟨blanks, h, hb⟩ := ih
    rw [trimEnd_cons]
    split
    · next hc =>
      refine ⟨c :: cs, rfl, ?_⟩
      rw [hc.1, List.nil_append] at h
      simp only [List.mem_cons, forall_eq_or_imp]
      exact ⟨hc.2, h ▸ hb⟩
    · exact ⟨blanks, by rw [List.cons_append, ← h], hb⟩

theorem isBlank_of_isWhitespace {c : Char} (h : c.isWhitespace) : isBlank c := by
  simp only [Char.isWhitespace, Bool.or_eq_true, decide_eq_true_eq] at h
  rcases h with ((h | h) | h) | h <;> subst h <;> decide

end RuleFilter.Text
