import RuleFilter.Proofs.Token.Scan

/-!
Spellings of lexemes. A text spells lexemes if it is scanned as these whatever stands after it, as
long as that cannot make the last one longer.
-/

namespace RuleFilter

namespace Token

/-- Whether a character can make the lexeme before it longer. -/
def mayExtend (c : Char) : Bool := Text.isFieldPart c || c == '=' || c == '>'

/-- The text is scanned as these lexemes. -/
def Scanned (cs : List Char) (ls : List Lexeme) : Prop :=
  ∃ ts, scan cs = .ok ts ∧ ts.map Token.lexeme = ls

instance (cs : List Char) (ls : List Lexeme) : Decidable (Scanned cs ls) :=
  decidable_of_iff ((scan cs).toOption.map (List.map Token.lexeme) = some ls) <| by
    unfold Scanned
    cases scan cs <;> simp [Except.toOption]

/-- The text is scanned as these lexemes in front of any text that does not extend them. -/
def Spells (cs : List Char) (ls : List Lexeme) : Prop :=
  ∀ rest ms, Text.Stops mayExtend rest → Scanned rest ms → Scanned (cs ++ rest) (ls ++ ms)

variable {c : Char} {cs ds rest : List Char} {l : Lexeme} {ls ms : List Lexeme}

theorem scan_nil : scan [] = .ok [] := by simp [scan, Text.trimStart]

theorem scan_of_next (hc : Text.isBlank c = false) (hl : next c cs = .ok (l, rest)) :
    scan (c :: cs) = (scan rest).map (⟨l, c :: cs⟩ :: ·) := by
  have htrim : Text.trimStart (c :: cs) = c :: cs := by simp [Text.trimStart, hc]
  rw [scan]
  split
  · simp_all
  · next d ds hd =>
    obtain ⟨rfl, rfl⟩ := List.cons.inj (hd.symm.trans htrim)
    split
    · simp_all
    · next l' after hl' =>
      cases hl.symm.trans hl'
      cases scan rest <;> rfl

theorem scan_blank (hc : Text.isBlank c) : scan (c :: cs) = scan cs := by
  have htrim : Text.trimStart (c :: cs) = Text.trimStart cs := by simp [Text.trimStart, hc]
  rw [scan.eq_def (c :: cs), scan.eq_def cs, htrim]

theorem scan_blanks (hds : ∀ c ∈ ds, Text.isBlank c) : scan (ds ++ cs) = scan cs := by
  induction ds with
  | nil => rfl
  | cons d ds ih =>
    rw [List.forall_mem_cons] at hds
    rw [List.cons_append, scan_blank hds.1, ih hds.2]

theorem scanned_nil : Scanned [] [] := ⟨[], scan_nil, rfl⟩

theorem Scanned.of_next (hc : Text.isBlank c = false) (hl : next c cs = .ok (l, rest))
    (h : Scanned rest ls) : Scanned (c :: cs) (l :: ls) := by
  obtain ⟨ts, hts, rfl⟩ := h
  exact ⟨⟨l, c :: cs⟩ :: ts, by rw [scan_of_next hc hl, hts]; rfl, rfl⟩

theorem Scanned.blank (hc : Text.isBlank c) (h : Scanned cs ls) : Scanned (c :: cs) ls := by
  rwa [Scanned, scan_blank hc]

theorem Spells.scanned (h : Spells cs ls) : Scanned cs ls := by
  simpa using h [] [] (Text.stops_nil _) scanned_nil

theorem spells_nil : Spells [] [] := fun _ _ _ h => h

theorem Spells.append (h : Spells cs ls) (h' : Spells ds ms) (hds : Text.Stops mayExtend ds) :
    Spells (cs ++ ds) (ls ++ ms) := fun rest ns hrest hns => by
  rw [List.append_assoc, List.append_assoc]
  exact h _ _ (hds.append hrest) (h' rest ns hrest hns)

theorem Spells.blank (h : Spells cs ls) : Spells (' ' :: cs) ls :=
  fun rest ms hrest hms => .blank rfl (h rest ms hrest hms)

/-- A mark needs nothing after it to end. -/
theorem Spells.mark (hl : mark? c = some l) (h : Spells cs ls) : Spells (c :: cs) (l :: ls) :=
  fun rest ms hrest hms => by
    have hc : Text.isBlank c = false := by
      unfold mark? at hl
      split at hl <;> first | rfl | cases hl
    exact .of_next hc (next_of_mark? hl) (h rest ms hrest hms)

theorem Spells.word (hc : Text.isWordStart c) (hcs : ∀ d ∈ cs, Text.isFieldPart d) :
    Spells (c :: cs) [.word (String.ofList (c :: cs))] := fun rest ms hrest hms => by
  have hstop : Text.Stops Text.isFieldPart rest := hrest.mono fun d hd => by simp [mayExtend, hd]
  have hnext := @next_word c (cs ++ rest) hc
  rw [Text.takeWhile_append_stop hcs hstop, Text.dropWhile_append_stop hcs hstop] at hnext
  exact .of_next (Text.isBlank_eq_false_of_isFieldPart (Text.isFieldPart_of_isWordStart hc)) hnext
    hms

theorem spells_string (s : String) : Spells (Value.string s).text.toList [.string s] :=
  fun rest ms _ hms => by
    have hq := quoted_flatMap_quoteChar ('"' :: (s.toList.flatMap Value.quoteChar ++ '"' :: rest))
      s.toList rest
    have hnext := next_quote (.inl rfl) hq
    rw [String.ofList_toList] at hnext
    simpa [Value.text] using Scanned.of_next rfl hnext hms

theorem isBlank_eq_false_of_numeric (hc : c.isDigit || isSign c) : Text.isBlank c = false := by
  rw [Bool.or_eq_true] at hc
  obtain h | h := hc
  · exact Text.isBlank_eq_false_of_isFieldPart (Text.isFieldPart_of_isDigit h)
  · obtain rfl | rfl : c = '+' ∨ c = '-' := by simpa [isSign] using h
    all_goals decide

/-- Digits and points, with a sign in front or none, are one number if they are a number. -/
theorem spells_of_number? {x : Binary64.Finite} (hc : c.isDigit || isSign c)
    (hcs : ∀ d ∈ cs, d.isDigit || d == '.') (h : number? (c :: cs) = some x) :
    Spells (c :: cs) [.number x] := fun rest ms hrest hms => by
  have hstop : Text.Stops Text.isFieldPart rest := hrest.mono fun d hd => by simp [mayExtend, hd]
  have hspan := numberSpan_append_stop hcs hstop
  have hnext : next c (cs ++ rest) = .ok (.number x, (numberSpan false (cs ++ rest)).2) :=
    next_number hc (by rw [hspan, h])
  rw [hspan] at hnext
  exact .of_next (isBlank_eq_false_of_numeric hc) hnext hms

theorem spells_number (x : Binary64.Finite) : Spells x.chars [.number x] := by
  obtain ⟨c, cs, hx, hc, hcs⟩ := x.exists_chars_eq
  obtain ⟨d, hd, hval⟩ := x.exists_ofChars?_chars
  have hfirst : c.isDigit || isSign c := by
    obtain h | rfl := hc
    · simp [h]
    · rfl
  rw [hx] at hd ⊢
  exact spells_of_number? hfirst hcs (by rw [number?, hd, Option.bind_some, hval]; rfl)

theorem Spells.close (h : Spells cs ls) (hc : mayExtend c = false) (hl : mark? c = some l) :
    Spells (cs ++ [c]) (ls ++ [l]) := h.append (.mark hl spells_nil) ((Text.stops_cons ..).2 hc)

/-- A sign ends where neither `=` nor `>` follows. -/
theorem spells_sign {op : Operator} (hc : mark? c = none)
    (hblank : Text.isBlank c = false)
    (h : ∀ rest : List Char, (∀ ds, rest = '=' :: ds → False) → (∀ ds, rest = '>' :: ds → False) →
      comparison? (c :: cs ++ rest) = some (op, rest)) : Spells (c :: cs) [.compare op] :=
  fun rest ms hrest hms => by
    have hop := h rest (by rintro ds rfl; simp [mayExtend] at hrest)
      (by rintro ds rfl; simp [mayExtend] at hrest)
    exact .of_next hblank (next_of_comparison? hc hop) hms

theorem spells_word {s : String} (h : Text.isWord s.toList) : Spells s.toList [.word s] := by
  have hs : String.ofList s.toList = s := String.ofList_toList
  revert h hs
  cases s.toList with
  | nil => simp [Text.isWord]
  | cons c cs =>
    rintro h rfl
    rw [Text.isWord, Bool.and_eq_true, List.all_eq_true] at h
    exact .word h.1 h.2

/-- Words with one blank between them. -/
theorem Spells.blank_append (h : Spells cs ls) (h' : Spells ds ms) :
    Spells (cs ++ ' ' :: ds) (ls ++ ms) := h.append h'.blank ((Text.stops_cons ..).2 rfl)

theorem Spells.intercalate {α : Type} {f : α → List Char} {g : α → List Lexeme}
    (hsep : ∀ ds ms, Spells ds ms → Spells (cs ++ ds) (ls ++ ms))
    (hstop : ∀ ds, Text.Stops mayExtend (cs ++ ds)) {xs : List α}
    (h : ∀ x ∈ xs, Spells (f x) (g x)) :
    Spells (cs.intercalate (xs.map f)) (ls.intercalate (xs.map g)) := by
  induction xs with
  | nil => exact spells_nil
  | cons x xs ih =>
    have hx := h x (by simp)
    cases xs with
    | nil => simpa using hx
    | cons y ys =>
      have hrest := ih fun z hz => h z (by simp [hz])
      rw [List.map_cons] at hrest
      simp only [List.map_cons, List.intercalate_cons_cons, List.append_assoc]
      exact hx.append (hsep _ _ hrest) (hstop _)

end Token

end RuleFilter
