import RuleFilter.Json.Printer
import RuleFilter.Proofs.Json.Numeral

/-!
JSON text taken apart. What is quoted is scanned back piece by piece and means what was quoted; a
text that spells lexemes does so in front of whatever does not go on with a number.
-/

namespace RuleFilter.Json

section Strings

/-- The control characters that have an escape of their own. -/
def shortEscapes : List Char := ['\x08', '\x0C', '\n', '\r', '\t']

/-- How a character is quoted. -/
def pieceOf (c : Char) : Piece :=
  if c.toNat < 0x20 ∧ c ∉ shortEscapes then .unit c.toNat else .char c

def pieces (s : String) : List Piece := s.toList.map pieceOf

theorem codeUnit?_control {n : Nat} (h : n < 0x20) :
    codeUnit? '0' '0' (Nat.digitChar (n / 16)) (Nat.digitChar (n % 16)) = some n := by
  have hall : ∀ n < 0x20,
      codeUnit? '0' '0' (Nat.digitChar (n / 16)) (Nat.digitChar (n % 16)) = some n := by decide
  exact hall n h

section Pieces

variable {cs rest : List Char} {ps : List Piece} (h : scanString cs = some (ps, rest))
include h

theorem scanString_escape {e c : Char} (he : escaped? e = some c) :
    scanString ('\\' :: e :: cs) = some (.char c :: ps, rest) := by
  have hu : e ≠ 'u' := by
    rintro rfl
    cases he
  rw [scanString]
  · rw [he, h]
    rfl
  · exact fun _ _ _ _ _ heq => absurd heq hu

theorem scanString_unit {a b c d : Char} {u : Nat} (hu : codeUnit? a b c d = some u) :
    scanString ('\\' :: 'u' :: a :: b :: c :: d :: cs) = some (.unit u :: ps, rest) := by
  rw [scanString, hu, h]
  rfl

theorem scanString_plain {c : Char} (hquote : c ≠ '"') (hslash : c ≠ '\\')
    (hc : ¬ c.toNat < 0x20) : scanString (c :: cs) = some (.char c :: ps, rest) := by
  rw [scanString]
  · rw [if_neg hc, h]
    rfl
  · exact hquote
  · intros
    exact hslash ‹_›
  · intros
    exact hslash ‹_›

theorem scanString_quoteChar (c : Char) :
    scanString (quoteChar c ++ cs) = some (pieceOf c :: ps, rest) := by
  unfold quoteChar
  split
  case h_8 hquote hslash hb hf hn hr ht =>
    split
    · next hc =>
      have hescape : c ∉ shortEscapes := by
        rintro hmem
        simp only [shortEscapes, List.mem_cons, List.not_mem_nil, or_false] at hmem
        obtain h | h | h | h | h := hmem
        exacts [hb h, hf h, hn h, hr h, ht h]
      have hpiece : pieceOf c = .unit c.toNat := if_pos ⟨hc, hescape⟩
      rw [hpiece]
      exact scanString_unit h (codeUnit?_control hc)
    · next hc =>
      have hpiece : pieceOf c = .char c := if_neg fun h => hc h.1
      rw [hpiece]
      exact scanString_plain h hquote hslash hc
  all_goals exact scanString_escape h rfl

end Pieces

/-- A quoted text is scanned up to its closing quote. -/
theorem scanString_pieces (cs rest : List Char) :
    scanString (cs.flatMap quoteChar ++ '"' :: rest) = some (cs.map pieceOf, rest) := by
  induction cs with
  | nil => rfl
  | cons c cs ih =>
    rw [List.flatMap_cons, List.append_assoc]
    exact scanString_quoteChar ih c

theorem joinPieces_pieceOf (cs : List Char) : joinPieces (cs.map pieceOf) = some cs := by
  induction cs with
  | nil => rfl
  | cons c cs ih =>
    rw [List.map_cons, pieceOf]
    split
    · next hc =>
      have hplane : c.toNat < 0xD800 ∨ 0xDFFF < c.toNat := by omega
      unfold joinPieces
      rw [if_pos hplane, ih, Char.ofNat_toNat]
      rfl
    · rw [joinPieces, ih]
      rfl

theorem textOf_pieces (s : String) : textOf (pieces s) = some s := by
  rw [textOf, pieces, joinPieces_pieceOf, Option.map_some, String.ofList_toList]

end Strings

section Lexemes

/-- A text that spells lexemes, in front of any text that does not go on with a number. -/
def Spells (cs : List Char) (ls : List Lexeme) : Prop :=
  ∀ rest, Text.Stops isNumeralPart rest → lexemes (cs ++ rest) = (lexemes rest).map (ls ++ ·)

theorem lexemes_of_scanLexeme {cs rest : List Char} {l : Lexeme}
    (h : scanLexeme cs = some (l, rest)) (hspace : Text.Stops isSpace cs) :
    lexemes cs = (lexemes rest).map (l :: ·) := by
  have hdrop : ([] ++ cs).dropWhile isSpace = cs := Text.dropWhile_append_stop nofun hspace
  rw [List.nil_append] at hdrop
  rw [lexemes]
  split
  · next hnil =>
    rw [← hdrop, hnil] at h
    cases h
  · next c after hcons =>
    rw [← hdrop, hcons] at h
    split
    · next hnone => cases h.symm.trans hnone
    · next l' after' hsome =>
      cases h.symm.trans hsome
      rfl

variable {cs ds text : List Char} {ls ms : List Lexeme} {l : Lexeme}

theorem spells_nil : Spells [] [] := by
  intro rest _
  exact (congrFun Option.map_id_fun (lexemes rest)).symm

theorem Spells.append (hcs : Spells cs ls) (hstop : Text.Stops isNumeralPart ds)
    (hds : Spells ds ms) : Spells (cs ++ ds) (ls ++ ms) := by
  intro rest hrest
  rw [List.append_assoc, hcs _ (hstop.append hrest), hds rest hrest, Option.map_map]
  congr 1
  funext after
  exact (List.append_assoc ..).symm

/-- A lexeme that ends by itself, in front of others. -/
theorem Spells.cons (hscan : ∀ rest, scanLexeme (text ++ rest) = some (l, rest))
    (hspace : ∀ rest, Text.Stops isSpace (text ++ rest)) (hcs : Spells cs ls) :
    Spells (text ++ cs) (l :: ls) := by
  intro rest hrest
  rw [List.append_assoc, lexemes_of_scanLexeme (hscan _) (hspace _), hcs rest hrest,
    Option.map_map]
  rfl

/-- The same for a lexeme of one character. -/
theorem Spells.cons_mark {c : Char} (hscan : ∀ rest, scanLexeme (c :: rest) = some (l, rest))
    (hspace : isSpace c = false) (hcs : Spells cs ls) : Spells (c :: cs) (l :: ls) := by
  have hmark : Spells ([c] ++ cs) (l :: ls) :=
    Spells.cons hscan (fun _ => (Text.stops_cons ..).2 hspace) hcs
  exact hmark

theorem Spells.cons_string (hcs : Spells cs ls) (s : String) :
    Spells ((quote s).toList ++ cs) (.string (pieces s) :: ls) := by
  have hquote (rest : List Char) :
      (quote s).toList ++ rest = '"' :: (s.toList.flatMap quoteChar ++ '"' :: rest) := by
    simp [quote]
  refine Spells.cons (fun rest => ?_) (fun rest => ?_) hcs
  · rw [hquote, scanLexeme, scanString_pieces]
    rfl
  · rw [hquote]
    exact (Text.stops_cons ..).2 rfl

theorem scanLexeme_of_isDigit {c : Char} (hc : c = '-' ∨ c.isDigit) :
    scanLexeme (c :: cs) =
      (scanNumeral (c :: cs)).map fun (n, rest) => (.number n, rest) := by
  rw [scanLexeme]
  all_goals
    rintro cs' heq
    obtain ⟨rfl, -⟩ := List.cons_eq_cons.1 heq
    exact absurd hc (by decide)

theorem isSpace_of_isDigit {c : Char} (hc : c = '-' ∨ c.isDigit) : isSpace c = false := by
  by_contra hspace
  simp only [isSpace, Bool.not_eq_false, Bool.or_eq_true, beq_iff_eq] at hspace
  obtain ((rfl | rfl) | rfl) | rfl := hspace
  all_goals exact absurd hc (by decide)

theorem spells_numeral {n : Numeral} (hn : n.WellFormed) : Spells n.chars [.number n] := by
  intro rest hrest
  obtain ⟨c, cs, hcs, hc⟩ : ∃ c cs, n.chars = c :: cs ∧ (c = '-' ∨ c.isDigit) := by
    obtain ⟨d, ds, hds, hd⟩ := hn.whole.exists_cons
    rw [Numeral.chars, hds, Decimal.signed]
    split
    · exact ⟨_, _, rfl, .inl rfl⟩
    · exact ⟨_, _, rfl, .inr hd⟩
  have hscan : scanLexeme (n.chars ++ rest) = some (.number n, rest) := by
    have hnumeral := Numeral.scanNumeral_chars hn hrest
    rw [hcs, List.cons_append] at hnumeral ⊢
    rw [scanLexeme_of_isDigit hc, hnumeral]
    rfl
  refine lexemes_of_scanLexeme hscan ?_
  rw [hcs]
  exact (Text.stops_cons ..).2 (isSpace_of_isDigit hc)

/-- Texts with commas between them, in front of one that begins with no part of a number. -/
theorem Spells.intercalate {α : Type} {as : List α} {text : α → List Char}
    {spelled : α → List Lexeme} (has : ∀ a ∈ as, Spells (text a) (spelled a))
    (hstop : Text.Stops isNumeralPart ds) (hds : Spells ds ms) :
    Spells ([','].intercalate (as.map text) ++ ds)
      ([.comma].intercalate (as.map spelled) ++ ms) := by
  induction as with
  | nil => exact hds
  | cons a as ih =>
    obtain ⟨ha, has⟩ := List.forall_mem_cons.1 has
    cases as with
    | nil => simpa using ha.append hstop hds
    | cons b as =>
      have hcomma : Spells (',' :: ([','].intercalate ((b :: as).map text) ++ ds))
          (.comma :: ([.comma].intercalate ((b :: as).map spelled) ++ ms)) :=
        Spells.cons_mark (fun _ => rfl) rfl (ih has)
      simpa using ha.append ((Text.stops_cons ..).2 rfl) hcomma

end Lexemes

end RuleFilter.Json
