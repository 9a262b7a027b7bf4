import RuleFilter.Predicate.Clause
import RuleFilter.Proofs.Text.Class
import RuleFilter.Proofs.Text.Run

/-!
The places of parameters in SQL text, read from left to right. The text of a clause has one place
for each value that the clause binds, and numbers them from the number before.
-/

namespace RuleFilter

namespace Sql

/-- The places in a text as they are written: a question mark, or a dollar sign with the digits
after it. -/
def places : List Char → List (List Char)
  | [] => []
  | c :: cs =>
    if c = '?' then [c] :: places cs
    else if c = '$' then (c :: cs.takeWhile Char.isDigit) :: places cs
    else places cs

/-- The places of `k` parameters after the first `n`. -/
def numbered (d : Dialect) (n k : Nat) : List (List Char) :=
  (List.range' (n + 1) k).map fun i => (d.placeholder i).toList

variable {cs ds : List Char}

theorem places_append (h : Text.Stops Char.isDigit ds) :
    places (cs ++ ds) = places cs ++ places ds := by
  induction cs with
  | nil => rfl
  | cons c cs ih =>
    simp only [List.cons_append, places, ih, Text.takeWhile_append_of_stops h]
    split
    · rfl
    · split <;> rfl

theorem places_plain_append (h : ∀ c ∈ cs, c ≠ '?' ∧ c ≠ '$') : places (cs ++ ds) = places ds := by
  induction cs with
  | nil => rfl
  | cons c cs ih =>
    have hc := h c (by simp)
    rw [List.cons_append, places, if_neg hc.1, if_neg hc.2]
    exact ih fun d hd => h d (by simp [hd])

theorem places_eq_nil (h : ∀ c ∈ cs, c ≠ '?' ∧ c ≠ '$') : places cs = [] := by
  simpa [places] using @places_plain_append cs [] h

theorem places_of_isWord (h : Text.isWord cs) : places cs = [] :=
  places_eq_nil fun c hc => by
    have := Text.isFieldPart_of_isWord h c hc
    constructor <;> rintro rfl <;> revert this <;> decide

/-- Question marks are places of their own. -/
theorem count_places (cs : List Char) : (places cs).count ['?'] = cs.count '?' := by
  induction cs with
  | nil => rfl
  | cons c cs ih =>
    rw [places]
    by_cases hc : c = '?'
    · simp [hc, ih]
    · by_cases hd : c = '$'
      · simp [hd, ih]
      · simp [hc, hd, ih]

theorem numbered_append (d : Dialect) (n k l : Nat) :
    numbered d n k ++ numbered d (n + k) l = numbered d n (k + l) := by
  rw [numbered, numbered, numbered, ← List.map_append, Nat.add_right_comm,
    List.range'_append_1]

@[simp] theorem numbered_zero (d : Dialect) (n : Nat) : numbered d n 0 = [] := rfl

theorem toList_placeholder_postgres (n : Nat) :
    (Dialect.postgres.placeholder n).toList = '$' :: Nat.toDigits 10 n := by
  simp [Dialect.placeholder]

theorem toList_placeholder_of_ne {d : Dialect} (h : d ≠ .postgres) (n : Nat) :
    (d.placeholder n).toList = ['?'] := by
  cases d with
  | postgres => exact absurd rfl h
  | sqlite | duckdb => simp [Dialect.placeholder]

theorem count_numbered {d : Dialect} (h : d ≠ .postgres) (n k : Nat) :
    (numbered d n k).count ['?'] = k := by
  simp [numbered, toList_placeholder_of_ne h, List.map_const']

theorem numbered_one (d : Dialect) (n : Nat) : numbered d n 1 = [(d.placeholder (n + 1)).toList] :=
  rfl

theorem places_placeholder (d : Dialect) (n : Nat) :
    places (d.placeholder n).toList = [(d.placeholder n).toList] := by
  by_cases hd : d = .postgres
  · have hdigits : ∀ c ∈ Nat.toDigits 10 n, c.isDigit := fun c hc =>
      Nat.isDigit_of_mem_toDigits (by decide) (by decide) hc
    have hnone : places (Nat.toDigits 10 n) = [] := places_eq_nil fun c hc => by
      have := hdigits c hc
      constructor <;> rintro rfl <;> revert this <;> decide
    have htake : (Nat.toDigits 10 n).takeWhile Char.isDigit = Nat.toDigits 10 n := by
      simpa using Text.takeWhile_append_stop hdigits (Text.stops_nil _)
    rw [hd, toList_placeholder_postgres]
    simp [places, hnone, htake]
  · rw [toList_placeholder_of_ne hd]
    rfl

theorem places_intercalate (d : Dialect) (is : List Nat) :
    places ([',', ' '].intercalate (is.map fun i => (d.placeholder i).toList)) =
      is.map fun i => (d.placeholder i).toList := by
  induction is with
  | nil => rfl
  | cons i is ih =>
    cases is with
    | nil => simp [places_placeholder]
    | cons j js =>
      rw [List.map_cons] at ih
      rw [List.map_cons, List.map_cons, List.intercalate_cons_cons, List.append_assoc,
        List.cons_append, places_append ((Text.stops_cons ..).2 rfl), places_placeholder]
      simpa [places] using ih

theorem map_placeholders {α : Type} (d : Dialect) (n : Nat) (vs : List α) :
    (vs.mapIdx fun i _ => d.placeholder (n + i + 1)) =
      (List.range' (n + 1) vs.length).map d.placeholder := by
  induction vs generalizing n with
  | nil => rfl
  | cons v vs ih =>
    rw [List.mapIdx_cons, List.length_cons, List.range'_succ, List.map_cons, ← ih (n + 1)]
    congr 2
    funext i _
    rw [Nat.add_comm i, Nat.add_assoc n 1 i]

end Sql

/-- The text of a clause has a place for each value bound, in their order. -/
theorem Clause.places_text {reference : String} (h : Text.isWord reference.toList) (d : Dialect)
    (n : Nat) (c : Clause) :
    Sql.places (c.text d reference n).toList = Sql.numbered d n c.bound.length := by
  have hreference (ds : List Char) :
      Sql.places (reference.toList ++ ' ' :: ds) = Sql.places ds := by
    rw [Sql.places_append ((Text.stops_cons ..).2 rfl), Sql.places_of_isWord h]
    rfl
  have hplace : ∀ (i : Nat) (ds : List Char), Text.Stops Char.isDigit ds →
      Sql.places ((d.placeholder i).toList ++ ds) = (d.placeholder i).toList :: Sql.places ds := by
    intro i ds hds
    rw [Sql.places_append hds, Sql.places_placeholder]
    rfl
  cases c with
  | isNull | isNotNull => simp [text, bound, hreference, Sql.places]
  | always | never => simp [text, bound, Sql.places]
  | compare relation v =>
    cases relation <;>
      simp [text, bound, hreference, Sql.Relation.sign, Sql.places, Sql.places_placeholder,
        Sql.numbered_one]
  | between low high =>
    have hplaces : Sql.numbered d n 2 =
        [(d.placeholder (n + 1)).toList, (d.placeholder (n + 2)).toList] := rfl
    simp [text, bound, hreference, Sql.places, Sql.places_placeholder, hplace, hplaces]
  | among negated vs =>
    have hvs := Sql.places_intercalate d (List.range' (n + 1) vs.length)
    have hclose : Text.Stops Char.isDigit [')'] := (Text.stops_cons ..).2 rfl
    cases negated <;>
      simp [text, bound, Dialect.membership, hreference, Sql.places, Sql.places_append hclose,
        Sql.map_placeholders, Function.comp_def, hvs, Sql.numbered]
  | like pattern =>
    simp [text, bound, Dialect.like, hreference, Sql.places, hplace, Sql.numbered_one]

end RuleFilter
