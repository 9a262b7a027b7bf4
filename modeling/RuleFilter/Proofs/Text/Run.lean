import RuleFilter.Text.Word

/-! Runs: the longest part at the front of a text whose characters have a property, cut where a text
that starts with another character follows. -/

namespace RuleFilter.Text

/-- A text that does not go on with a character that has the property. -/
def Stops (p : Char → Bool) (rest : List Char) : Prop := ∀ c ∈ rest.head?, p c = false

@[simp] theorem stops_nil (p : Char → Bool) : Stops p [] := by simp [Stops]

@[simp] theorem stops_cons (p : Char → Bool) (c : Char) (cs : List Char) :
    Stops p (c :: cs) ↔ p c = false := by simp [Stops]

theorem stops_beq_iff {c : Char} {cs : List Char} :
    Stops (· == c) cs ↔ ∀ ds, cs = c :: ds → False := by cases cs <;> simp

theorem Stops.append {p : Char → Bool} {cs rest : List Char} (hcs : Stops p cs)
    (hrest : Stops p rest) : Stops p (cs ++ rest) := by
  cases cs with
  | nil => exact hrest
  | cons c cs => simpa using hcs

theorem Stops.left {p : Char → Bool} {cs rest : List Char} (h : Stops p (cs ++ rest)) :
    Stops p cs := by
  cases cs with
  | nil => simp
  | cons c cs => simpa using h

theorem Stops.mono {p q : Char → Bool} {rest : List Char} (h : Stops q rest)
    (hpq : ∀ c, p c → q c) : Stops p rest := by
  cases rest with
  | nil => simp
  | cons c cs =>
    rw [stops_cons] at h ⊢
    exact Bool.eq_false_iff.2 fun hp => by simp [hpq c hp] at h

theorem Stops.append_congr {p : Char → Bool} {rest rest' : List Char}
    (h : Stops p rest → Stops p rest') {cs : List Char} (hcs : Stops p (cs ++ rest)) :
    Stops p (cs ++ rest') := by
  cases cs with
  | nil => exact h hcs
  | cons c cs => simpa using hcs

theorem takeWhile_append_stop {p : Char → Bool} {cs rest : List Char} (hcs : ∀ c ∈ cs, p c)
    (hrest : Stops p rest) : (cs ++ rest).takeWhile p = cs := by
  rw [List.takeWhile_append_of_pos hcs]
  cases rest with
  | nil => simp
  | cons c rest => simp [(stops_cons p c rest).1 hrest]

theorem dropWhile_append_stop {p : Char → Bool} {cs rest : List Char} (hcs : ∀ c ∈ cs, p c)
    (hrest : Stops p rest) : (cs ++ rest).dropWhile p = rest := by
  rw [List.dropWhile_append_of_pos hcs]
  cases rest with
  | nil => simp
  | cons c rest => simp [(stops_cons p c rest).1 hrest]

theorem takeWhile_append_of_stops {p : Char → Bool} {rest : List Char} (hrest : Stops p rest)
    (cs : List Char) : (cs ++ rest).takeWhile p = cs.takeWhile p := by
  induction cs with
  | nil =>
    cases rest with
    | nil => rfl
    | cons c rest => simp [(stops_cons p c rest).1 hrest]
  | cons c cs ih => simp only [List.cons_append, List.takeWhile_cons, ih]

theorem dropWhile_append_of_stops {p : Char → Bool} {rest : List Char} (hrest : Stops p rest)
    (cs : List Char) : (cs ++ rest).dropWhile p = cs.dropWhile p ++ rest := by
  induction cs with
  | nil =>
    cases rest with
    | nil => rfl
    | cons c rest => simp [(stops_cons p c rest).1 hrest]
  | cons c cs ih =>
    rw [List.cons_append, List.dropWhile_cons, List.dropWhile_cons, ih]
    split <;> rfl

/-- A run that ends in front of a text ends in front of any other that does not go on with it. -/
theorem span_congr {p : Char → Bool} {cs after rest rest' : List Char}
    (h : (cs ++ rest).dropWhile p = after ++ rest) (hrest : Stops p rest → Stops p rest') :
    (cs ++ rest').takeWhile p = (cs ++ rest).takeWhile p ∧
      (cs ++ rest').dropWhile p = after ++ rest' := by
  induction cs with
  | nil =>
    have hlength := (List.dropWhile_suffix (l := rest) p).length_le
    rw [List.nil_append] at h
    obtain rfl : after = [] := by
      rw [h, List.length_append] at hlength
      exact List.length_eq_zero_iff.1 (by omega)
    have hstop : Stops p rest := by
      have hhead := List.head?_dropWhile_not p rest
      rw [h] at hhead
      cases rest with
      | nil => exact stops_nil p
      | cons c rest => exact (stops_cons ..).2 hhead
    have htake {ds : List Char} (hds : Stops p ds) : ds.takeWhile p = [] := by
      simpa using takeWhile_append_of_stops hds []
    have hdrop : rest'.dropWhile p = rest' := by
      simpa using dropWhile_append_of_stops (hrest hstop) []
    exact ⟨(htake (hrest hstop)).trans (htake hstop).symm, hdrop⟩
  | cons c cs ih =>
    by_cases hc : p c
    · rw [List.cons_append, List.dropWhile_cons_of_pos hc] at h
      simpa [hc] using ih h
    · rw [List.cons_append, List.dropWhile_cons_of_neg hc, ← List.cons_append,
        List.append_cancel_right_eq] at h
      simp [hc, ← h]

end RuleFilter.Text
