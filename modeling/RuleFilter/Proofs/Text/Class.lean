import RuleFilter.Rule.Keyword
import RuleFilter.Text.Blank

/-! The classes of characters that filter text is made of, by code point, and which of them are
apart. -/

namespace RuleFilter.Text

/-- A word that may hold points, keywords included. -/
def isWord : List Char → Bool
  | [] => false
  | c :: cs => isWordStart c && cs.all isFieldPart

theorem isFieldName_iff {s : String} :
    isFieldName s ↔ isWord s.toList ∧ Keyword.ofWord? s = none := by
  unfold isFieldName isWord
  cases s.toList <;> simp

variable {c : Char}

theorem isDigit_iff : c.isDigit ↔ 48 ≤ c.toNat ∧ c.toNat ≤ 57 := by
  simp [Char.isDigit, UInt32.le_iff_toNat_le]

theorem isAlpha_iff :
    c.isAlpha ↔ (65 ≤ c.toNat ∧ c.toNat ≤ 90) ∨ (97 ≤ c.toNat ∧ c.toNat ≤ 122) := by
  delta Char.isAlpha Char.isUpper Char.isLower
  simp [UInt32.le_iff_toNat_le]

theorem isWordStart_iff : isWordStart c ↔
    (65 ≤ c.toNat ∧ c.toNat ≤ 90) ∨ (97 ≤ c.toNat ∧ c.toNat ≤ 122) ∨ c.toNat = 95 := by
  rw [isWordStart, Bool.or_eq_true, isAlpha_iff, beq_iff_eq, ← Char.toNat_inj, or_assoc]
  rfl

theorem isFieldPart_iff : isFieldPart c ↔ isWordStart c ∨ c.isDigit ∨ c = '.' := by
  simp only [isFieldPart, isWordPart, isWordStart, Char.isAlphanum, Bool.or_eq_true, beq_iff_eq]
  grind

theorem isFieldPart_of_isWordStart (h : isWordStart c) : isFieldPart c :=
  isFieldPart_iff.2 (.inl h)

theorem isFieldPart_of_isDigit (h : c.isDigit) : isFieldPart c := isFieldPart_iff.2 (.inr (.inl h))

theorem isDigit_eq_false_of_isWordStart (h : isWordStart c) : c.isDigit = false := by
  rw [isWordStart_iff] at h
  rw [Bool.eq_false_iff, Ne, isDigit_iff]
  omega

theorem isBlank_eq_false_of_isFieldPart (h : isFieldPart c) : isBlank c = false := by
  rw [isFieldPart_iff, isWordStart_iff, isDigit_iff, ← Char.toNat_inj] at h
  rw [Bool.eq_false_iff]
  intro hb
  simp only [isBlank, Bool.or_eq_true, Bool.and_eq_true, decide_eq_true_eq, beq_iff_eq] at hb
  have : '.'.toNat = 46 := rfl
  omega

theorem toNat_toLower (c : Char) : c.toLower.toNat =
    if 65 ≤ c.toNat ∧ c.toNat ≤ 90 then c.toNat + 32 else c.toNat := by
  have hupper : c.val ≥ 'A'.val ∧ c.val ≤ 'Z'.val ↔ 65 ≤ c.toNat ∧ c.toNat ≤ 90 := by
    simp [UInt32.le_iff_toNat_le]
  unfold Char.toLower
  by_cases h : c.val ≥ 'A'.val ∧ c.val ≤ 'Z'.val
  · have hnat := hupper.1 h
    have hval : c.val.toNat = c.toNat := rfl
    rw [dif_pos h, if_pos hnat]
    show (c.val + 32).toNat = c.val.toNat + 32
    rw [UInt32.toNat_add]
    exact Nat.mod_eq_of_lt (by simp; omega)
  · rw [dif_neg h, if_neg (mt hupper.2 h)]

/-- Characters that differ only in case are letters. -/
theorem toLower_eq_iff {d : Char} : c.toLower = d.toLower ↔ c = d ∨
    c.isAlpha ∧ d.isAlpha ∧ (c.toNat + 32 = d.toNat ∨ c.toNat = d.toNat + 32) := by
  rw [← Char.toNat_inj, ← @Char.toNat_inj c d, toNat_toLower, toNat_toLower, isAlpha_iff,
    isAlpha_iff]
  split <;> split <;> omega

theorem isWordStart_congr {d : Char} (h : c.toLower = d.toLower) :
    isWordStart c ↔ isWordStart d := by
  obtain rfl | ⟨hc, hd, -⟩ := toLower_eq_iff.1 h
  · exact Iff.rfl
  · simp [isWordStart, hc, hd]

theorem isFieldPart_congr {d : Char} (h : c.toLower = d.toLower) :
    isFieldPart c ↔ isFieldPart d := by
  obtain rfl | ⟨hc, hd, -⟩ := toLower_eq_iff.1 h
  · exact Iff.rfl
  · simp [isFieldPart, isWordPart, Char.isAlphanum, hc, hd]

theorem isWord_congr {cs ds : List Char} (h : cs.map Char.toLower = ds.map Char.toLower)
    (hcs : isWord cs) : isWord ds := by
  have hall {cs ds : List Char} (h : cs.map Char.toLower = ds.map Char.toLower)
      (hcs : ∀ c ∈ cs, isFieldPart c) : ∀ d ∈ ds, isFieldPart d := by
    intro d hd
    have hlower : d.toLower ∈ cs.map Char.toLower := h ▸ List.mem_map_of_mem hd
    obtain ⟨c, hc, hcd⟩ := List.mem_map.1 hlower
    exact (isFieldPart_congr hcd).1 (hcs c hc)
  cases cs with
  | nil => cases hcs
  | cons c cs =>
    cases ds with
    | nil => cases h
    | cons d ds =>
      obtain ⟨hfirst, hrest⟩ := List.cons.inj h
      rw [isWord, Bool.and_eq_true, List.all_eq_true] at hcs ⊢
      exact ⟨(isWordStart_congr hfirst).1 hcs.1, hall hrest hcs.2⟩

theorem isFieldPart_of_isWord {cs : List Char} (h : isWord cs) : ∀ c ∈ cs, isFieldPart c := by
  cases cs with
  | nil => simp
  | cons d ds =>
    rw [isWord, Bool.and_eq_true, List.all_eq_true] at h
    exact List.forall_mem_cons.2 ⟨isFieldPart_of_isWordStart h.1, h.2⟩

end RuleFilter.Text
