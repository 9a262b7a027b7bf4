import RuleFilter.Proofs.Sql.Places

/-!
Texts without the numbers of their places. Clauses differ from dialect to dialect only in how their
places are written, so that they are alike once every place is a question mark.
-/

namespace RuleFilter

namespace Sql

/-- The text with every dollar sign and the digits after it replaced by a question mark. A dollar
sign without digits is left. -/
def unnumbered : List Char → List Char
  | [] => []
  | c :: cs =>
    if c = '$' ∧ cs.takeWhile Char.isDigit ≠ [] then '?' :: unnumbered (cs.dropWhile Char.isDigit)
    else c :: unnumbered cs
termination_by cs => cs.length
decreasing_by
  · exact Nat.lt_succ_of_le (List.dropWhile_suffix _).length_le
  · simp

/-- What writes the places of a dialect as question marks and leaves other text as it is. -/
structure Unnumbers (d : Dialect) (f : List Char → List Char) : Prop where
  nil : f [] = []
  cons : ∀ {c cs}, c ≠ '$' → f (c :: cs) = c :: f cs
  placeholder : ∀ n {rest}, Text.Stops Char.isDigit rest →
    f ((d.placeholder n).toList ++ rest) = '?' :: f rest

theorem unnumbers_unnumbered : Unnumbers .postgres unnumbered where
  nil := by rw [unnumbered]
  cons h := by rw [unnumbered, if_neg (by simp [h])]
  placeholder n rest hrest := by
    have hdigits : ∀ c ∈ Nat.toDigits 10 n, c.isDigit := fun c hc =>
      Nat.isDigit_of_mem_toDigits (by decide) (by decide) hc
    have htake := Text.takeWhile_append_stop hdigits hrest
    rw [toList_placeholder_postgres, List.cons_append, unnumbered, htake,
      if_pos ⟨rfl, Nat.toDigits_ne_nil⟩, Text.dropWhile_append_stop hdigits hrest]

theorem unnumbers_id {d : Dialect} (h : d ≠ .postgres) : Unnumbers d id where
  nil := rfl
  cons _ := rfl
  placeholder n _ _ := by rw [toList_placeholder_of_ne h]; rfl

namespace Unnumbers

variable {d : Dialect} {f : List Char → List Char} {cs rest : List Char}

theorem append (hf : Unnumbers d f) (h : ∀ c ∈ cs, c ≠ '$') : f (cs ++ rest) = cs ++ f rest := by
  induction cs with
  | nil => rfl
  | cons c cs ih =>
    rw [List.cons_append, hf.cons (h c (by simp)), ih fun e he => h e (by simp [he]),
      List.cons_append]

theorem word (hf : Unnumbers d f) (h : Text.isWord cs) : f (cs ++ rest) = cs ++ f rest := by
  refine hf.append fun c hc => ?_
  have := Text.isFieldPart_of_isWord h c hc
  rintro rfl
  revert this
  decide

theorem intercalate (hf : Unnumbers d f) (hrest : Text.Stops Char.isDigit rest) (is : List Nat) :
    f ([',', ' '].intercalate (is.map fun i => (d.placeholder i).toList) ++ rest) =
      [',', ' '].intercalate (is.map fun _ => ['?']) ++ f rest := by
  induction is with
  | nil => rfl
  | cons i is ih =>
    cases is with
    | nil => simpa using hf.placeholder i hrest
    | cons j js =>
      rw [List.map_cons] at ih ⊢
      rw [List.map_cons, List.intercalate_cons_cons, List.append_assoc, List.append_assoc,
        List.cons_append, hf.placeholder i ((Text.stops_cons ..).2 rfl)]
      simp [List.intercalate_cons_cons, hf.cons, ih]

end Unnumbers

end Sql

/-- The text of a clause, in any dialect and whatever stands before it, is that of the dialect whose
places have no numbers. -/
theorem Clause.unnumbers_text {d : Dialect} {f : List Char → List Char} {reference : String}
    (hf : Sql.Unnumbers d f) (h : Text.isWord reference.toList) (n : Nat) (c : Clause)
    {rest : List Char} (hrest : Text.Stops Char.isDigit rest) :
    f ((c.text d reference n).toList ++ rest) =
      (c.text .sqlite reference 0).toList ++ f rest := by
  have hmark : ∀ i, (Dialect.sqlite.placeholder i).toList = ['?'] := fun i =>
    Sql.toList_placeholder_of_ne (by decide) i
  cases c with
  | isNull | isNotNull => simp [text, hf.word h, hf.cons]
  | always | never => simp [text, hf.cons]
  | compare relation v =>
    cases relation <;>
      simp [text, hf.word h, hf.cons, hf.placeholder _ hrest, hmark, Sql.Relation.sign]
  | between low high =>
    simp [text, hf.word h, hf.cons, hf.placeholder, hrest, hmark]
  | among negated vs =>
    have hclose : Text.Stops Char.isDigit (')' :: rest) := (Text.stops_cons ..).2 rfl
    have hvs := hf.intercalate hclose
    have hmarks := Sql.map_placeholders .sqlite 0 vs
    rw [Nat.zero_add] at hmarks
    cases negated <;>
      simp only [text, Dialect.membership, hmarks, Sql.map_placeholders, String.toList_append,
        String.toList_intercalate, List.map_map, Function.comp_def, hmark, List.append_assoc] <;>
      simp [hf.word h, hf.cons, hvs, List.map_const']
  | like pattern => simp [text, Dialect.like, hf.word h, hf.cons, hf.placeholder, hmark]

end RuleFilter
