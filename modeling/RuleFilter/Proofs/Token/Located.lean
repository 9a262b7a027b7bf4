import RuleFilter.Proofs.Token.Append

/-!
Where the lexemes of a text stand. Texts with blanks between them are scanned as each of them is by
itself, and every offset within the later one is moved by the bytes before it.
-/

namespace RuleFilter

namespace Text

theorem byteLength_append (cs ds : List Char) :
    byteLength (cs ++ ds) = byteLength cs + byteLength ds := by
  induction cs with
  | nil => simp [byteLength]
  | cons c cs ih =>
    simp only [byteLength, List.cons_append, List.foldr_cons] at ih ⊢
    rw [ih, Nat.add_assoc]

theorem byteLength_toList (s : String) : byteLength s.toList = s.utf8ByteSize := by
  induction s using String.push_induction with
  | empty => rfl
  | push s c ih =>
    rw [String.toList_push, byteLength_append, ih, String.utf8ByteSize_push]
    rfl

theorem utf8ByteSize_ofList (cs : List Char) : (String.ofList cs).utf8ByteSize = byteLength cs := by
  rw [← byteLength_toList, String.toList_ofList]

theorem byteLength_le_of_suffix {cs ds : List Char} (h : cs <:+ ds) :
    byteLength cs ≤ byteLength ds := by
  obtain ⟨es, rfl⟩ := h
  rw [byteLength_append]
  exact Nat.le_add_left ..

end Text

/-- The fault as it is worded where `n` more bytes stand before the text. -/
def TextFault.moved (n : Nat) : TextFault → TextFault
  | .unterminatedString start => .unterminatedString (start + n)
  | fault => fault

/-- The error as it is reported where `n` more bytes stand before the text. -/
def FilterError.moved (n : Nat) : FilterError → FilterError
  | .malformed position fault => .malformed (position + n) (fault.moved n)
  | e => e

namespace Token

/-- A lexeme and the number of bytes before it. -/
def place (text : List Char) (t : Token) : Option Lexeme × Nat := (some t.lexeme, t.position text)

/-- The lexemes of a text and at last its end, each with the number of bytes before it. -/
def located (text : String) : Except FilterError (List (Option Lexeme × Nat)) :=
  match scan text.toList with
  | .ok ts => .ok (ts.map (place text.toList) ++ [(none, text.utf8ByteSize)])
  | .error f => .error (f.toError text.toList)

section Offsets

variable {cs ds : List Char} {t : Token} {f : Failure}

theorem offset_append {source : List Char} (h : source <:+ cs) :
    offset (ds ++ cs) source = offset cs source + Text.byteLength ds := by
  have hle := Text.byteLength_le_of_suffix h
  rw [offset, offset, Text.byteLength_append]
  omega

theorem place_inFront (rest : List Char) : place (cs ++ rest) (t.inFront rest) = place cs t := by
  simp only [place, position, offset, inFront, Text.byteLength_append]
  congr 1
  omega

theorem place_append (h : t.source <:+ cs) :
    place (ds ++ cs) t = ((place cs t).1, (place cs t).2 + Text.byteLength ds) := by
  rw [place, position, offset_append h]
  rfl

/-- All that the failure points at is within the text. -/
structure Failure.Within (f : Failure) (cs : List Char) : Prop where
  source : f.source <:+ cs
  start : ∀ start, f.fault = .unterminatedString start → start <:+ cs

theorem Failure.Within.mono (h : f.Within cs) (hcs : cs <:+ ds) : f.Within ds where
  source := h.source.trans hcs
  start start hstart := (h.start start hstart).trans hcs

theorem toError_append (h : f.Within cs) :
    f.toError (ds ++ cs) = (f.toError cs).moved (Text.byteLength ds) := by
  obtain ⟨source, fault⟩ := f
  rw [Failure.toError, Failure.toError, FilterError.moved, offset_append h.source]
  cases fault with
  | unterminatedString start =>
    simp only [TextFault.moved, offset_append (h.start start rfl)]
  | _ => rfl

theorem source_suffix_of_scan {ts : List Token} (h : scan cs = .ok ts) :
    ∀ t ∈ ts, t.source <:+ cs := by
  intro t ht
  obtain ⟨us, vs, rfl⟩ := List.append_of_mem ht
  obtain ⟨ds, _, rfl, -⟩ := (before_of_scan h).exists_append
  exact List.suffix_append ..

theorem within_of_quoted {start : List Char} {quote : Char}
    (h : quoted start quote cs = .error f) : f.source <:+ cs ∧
      ∀ start', f.fault = .unterminatedString start' → start' = start := by
  fun_induction quoted start quote cs generalizing f with
  | case1 | case3 =>
    cases h
    simp
  | case2 | case6 | case8 => cases h
  | case4 =>
    cases h
    simp
  | case5 e cs d _ f' hf _ ih =>
    cases h
    obtain ⟨hsource, hstart⟩ := ih hf
    exact ⟨hsource.trans ((List.suffix_cons ..).trans (List.suffix_cons ..)), hstart⟩
  | case7 c cs _ _ f' hf ih =>
    cases h
    obtain ⟨hsource, hstart⟩ := ih hf
    exact ⟨hsource.trans (List.suffix_cons ..), hstart⟩

theorem within_of_next {c : Char} (h : next c cs = .error f) : f.Within (c :: cs) := by
  revert h
  fun_cases next c cs with
  | case4 _ _ _ _ f' hf =>
    intro h
    cases h
    obtain ⟨hsource, hstart⟩ := within_of_quoted hf
    exact ⟨hsource.trans (List.suffix_cons ..), fun start h => hstart start h ▸ List.suffix_rfl⟩
  | case3 | case7 | case9 =>
    intro h
    cases h
    exact ⟨List.suffix_rfl, fun start h => by cases h⟩
  | case1 | case2 | case5 | case6 | case8 =>
    intro h
    cases h

theorem within_of_scan (h : scan cs = .error f) : f.Within cs := by
  fun_induction scan cs generalizing f with
  | case1 | case4 => cases h
  | case2 cs c cs' htrim e hl =>
    cases h
    exact (within_of_next hl).mono (htrim ▸ List.dropWhile_suffix _)
  | case3 cs c cs' htrim l after hl f' hf ih =>
    cases h
    have hafter : after <:+ c :: cs' := (next_suffix hl).trans (List.suffix_cons ..)
    exact (ih hf).mono (hafter.trans (htrim ▸ List.dropWhile_suffix _))

end Offsets

theorem located_eq_ok_iff {text : String} {ps : List (Option Lexeme × Nat)} :
    located text = .ok ps ↔ ∃ ts, scan text.toList = .ok ts ∧
      ps = ts.map (place text.toList) ++ [(none, text.utf8ByteSize)] := by
  rw [located]
  cases scan text.toList <;> simp [eq_comm]

theorem located_of_error {text : String} {f : Failure} (h : scan text.toList = .error f) :
    located text = .error (f.toError text.toList) := by rw [located, h]

/-- Where blanks stand between two texts, the lexemes of the first one are followed by those of the
second one or by its error, with every offset moved by the bytes that stand before it. -/
theorem located_append_blanks {a w : String} {ps : List (Option Lexeme × Nat)}
    (ha : located a = .ok (ps ++ [(none, a.utf8ByteSize)])) (hne : w ≠ "")
    (hw : ∀ c ∈ w.toList, Text.isBlank c) (b : String) :
    let n := a.utf8ByteSize + w.utf8ByteSize
    (∀ qs, located b = .ok qs →
        located (a ++ w ++ b) = .ok (ps ++ qs.map fun q => (q.1, q.2 + n))) ∧
      ∀ e, located b = .error e → located (a ++ w ++ b) = .error (e.moved n) := by
  intro n
  obtain ⟨ts, hts, hps⟩ := located_eq_ok_iff.1 ha
  obtain rfl := List.append_cancel_right hps
  have htext : (a ++ w ++ b).toList = (a.toList ++ w.toList) ++ b.toList := by simp
  have hscan := scan_append_blanks hts (by simpa using hne) hw b.toList
  have hn : Text.byteLength (a.toList ++ w.toList) = n := by
    rw [Text.byteLength_append, Text.byteLength_toList, Text.byteLength_toList]
  have hplace : (ts.map (inFront (w.toList ++ b.toList))).map
      (place ((a.toList ++ w.toList) ++ b.toList)) = ts.map (place a.toList) := by
    simp [place_inFront]
  constructor
  · intro qs hqs
    obtain ⟨us, hus, rfl⟩ := located_eq_ok_iff.1 hqs
    have hmoved : us.map (place ((a.toList ++ w.toList) ++ b.toList)) =
        (us.map (place b.toList)).map fun q => (q.1, q.2 + n) := by
      rw [List.map_map, ← hn]
      exact List.map_congr_left fun u hu => place_append (source_suffix_of_scan hus u hu)
    rw [hus] at hscan
    have hend : (a ++ w ++ b).utf8ByteSize = b.utf8ByteSize + n := by
      rw [String.utf8ByteSize_append, String.utf8ByteSize_append, Nat.add_comm]
    refine located_eq_ok_iff.2 ⟨ts.map (inFront (w.toList ++ b.toList)) ++ us, htext ▸ hscan, ?_⟩
    rw [htext, List.map_append, List.map_append, hplace, hmoved, hend, List.append_assoc]
    rfl
  · intro e he
    cases hb : scan b.toList with
    | ok us =>
      rw [located, hb] at he
      cases he
    | error f =>
      rw [located_of_error hb] at he
      cases he
      rw [hb] at hscan
      rw [located_of_error (htext ▸ hscan), htext, toError_append (within_of_scan hb), hn]

/-- The text ends with a string, two bytes of blank follow it, and the string after that is never
closed. -/
theorem located_append_blanks_unterminated :
    let a := "x = 'é'"
    let e := FilterError.malformed 5 (.unterminatedString 2)
    (located a = .ok [(some (.word "x"), 0), (some (.compare .eq), 2), (some (.string "é"), 4),
        (none, 8)] ∧ "\u00a0" ≠ "" ∧ (∀ c ∈ "\u00a0".toList, Text.isBlank c) ∧
        located "= \"or" = .error e) ∧
      located (a ++ "\u00a0" ++ "= \"or") = .error (.malformed 15 (.unterminatedString 12)) := by
  intro a e
  have ha : located a = .ok [(some (.word "x"), 0), (some (.compare .eq), 2),
      (some (.string "é"), 4), (none, 8)] := by decide +kernel
  have hb : located "= \"or" = .error e := by decide +kernel
  have hw : ∀ c ∈ "\u00a0".toList, Text.isBlank c := List.all_eq_true.1 (by decide)
  have happend := @located_append_blanks _ _
    [(some (.word "x"), 0), (some (.compare .eq), 2), (some (.string "é"), 4)] ha (by decide) hw
  exact ⟨⟨ha, by decide, hw, hb⟩, (happend _).2 e hb⟩

end Token

end RuleFilter
