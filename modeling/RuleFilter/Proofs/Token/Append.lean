import Mathlib.Data.List.TakeWhile
import RuleFilter.Proofs.Success
import RuleFilter.Proofs.Token.Spelling

/-!
Texts in front of others. How far a text is scanned by itself is told by the first character after
it: in front of any other text whose first character does not go on with more lexemes it is scanned
as the same tokens. So a text can be cut between two tokens and go on in another way, and whatever
strings and marks a scanned text has, between parentheses it spells its lexemes.
-/

namespace RuleFilter

namespace Token

/-- Whether a character can make a lexeme before it longer, or a number that lacks its exponent. -/
def mayContinue (c : Char) : Bool := mayExtend c || isSign c

/-- The characters that may follow the letter of an exponent in a number. -/
def isExponentPart (c : Char) : Bool := isNumberPart c || isSign c

/-- The second text does not go on with any lexeme in front of it with which the first one does
not. -/
structure Spares (rest rest' : List Char) : Prop where
  word : Text.Stops Text.isFieldPart rest → Text.Stops Text.isFieldPart rest'
  number : Text.Stops isNumberPart rest → Text.Stops isNumberPart rest'
  exponent : Text.Stops isExponentPart rest → Text.Stops isExponentPart rest'
  equals : Text.Stops (· == '=') rest → Text.Stops (· == '=') rest'
  greater : Text.Stops (· == '>') rest → Text.Stops (· == '>') rest'

variable {c : Char} {cs after rest rest' : List Char} {l : Lexeme} {ls ms : List Lexeme}

theorem Spares.of_stops (h : Text.Stops mayContinue rest') : Spares rest rest' where
  word _ := h.mono fun _ hc => by simp [mayContinue, mayExtend, hc]
  number _ := h.mono fun _ hc => by simp [mayContinue, mayExtend, isFieldPart_of_isNumberPart hc]
  exponent _ := h.mono fun _ hc => by
    rw [isExponentPart, Bool.or_eq_true] at hc
    obtain hc | hc := hc
    · simp [mayContinue, mayExtend, isFieldPart_of_isNumberPart hc]
    · simp [mayContinue, hc]
  equals _ := h.mono fun _ hc => by simp_all [mayContinue, mayExtend]
  greater _ := h.mono fun _ hc => by simp_all [mayContinue, mayExtend]

/-- What a text goes on with is told by its first character. -/
theorem Spares.of_first {d : Char} {ds : List Char}
    (hword : Text.isFieldPart d → Text.isFieldPart c) (hnumber : isNumberPart d → isNumberPart c)
    (hexponent : isExponentPart d → isExponentPart c) (hequals : d = '=' → c = '=')
    (hgreater : d = '>' → c = '>') : Spares (c :: cs) (d :: ds) := by
  have hstops {p : Char → Bool} (hp : p d → p c) (h : Text.Stops p (c :: cs)) :
      Text.Stops p (d :: ds) := by
    rw [Text.stops_cons, Bool.eq_false_iff] at h ⊢
    exact mt hp h
  exact ⟨hstops hword, hstops hnumber, hstops hexponent, hstops (by simpa using hequals),
    hstops (by simpa using hgreater)⟩

theorem Spares.nil (rest : List Char) : Spares rest [] := .of_stops (Text.stops_nil _)

section Next

theorem comparison?_congr {op : Operator}
    (h : comparison? (c :: (cs ++ rest)) = some (op, after ++ rest)) (hrest : Spares rest rest') :
    comparison? (c :: (cs ++ rest')) = some (op, after ++ rest') := by
  have hcut {ds es : List Char} (h : ds ++ rest = es ++ rest) : ds = es := by
    rwa [List.append_cancel_right_eq] at h
  generalize hfull : c :: (cs ++ rest) = full at h
  unfold comparison? at h
  split at h <;> cases h <;> obtain ⟨rfl, hcs⟩ := List.cons.inj hfull
  case h_1 | h_3 | h_4 | h_5 | h_7 =>
    rw [← List.cons_append] at hcs
    rw [hcut hcs]
    rfl
  case h_2 heq =>
    rw [← hcs, ← Text.stops_beq_iff] at heq
    rw [hcut hcs] at heq ⊢
    exact comparison?.eq_2 _ (Text.stops_beq_iff.1 (heq.append_congr hrest.equals))
  case h_6 heq hgt =>
    rw [← hcs, ← Text.stops_beq_iff] at heq hgt
    rw [hcut hcs] at heq hgt ⊢
    exact comparison?.eq_6 _ (Text.stops_beq_iff.1 (heq.append_congr hrest.equals))
      (Text.stops_beq_iff.1 (hgt.append_congr hrest.greater))
  case h_8 heq =>
    rw [← hcs, ← Text.stops_beq_iff] at heq
    rw [hcut hcs] at heq ⊢
    exact comparison?.eq_8 _ (Text.stops_beq_iff.1 (heq.append_congr hrest.equals))

theorem numberSpan_eq_nil_iff {signed : Bool} : numberSpan signed rest = ([], rest) ↔
    Text.Stops (fun c => isNumberPart c || (signed && isSign c)) rest := by
  cases rest with
  | nil => simp [numberSpan]
  | cons c rest =>
    rw [Text.stops_cons, numberSpan]
    constructor
    · intro h
      split at h
      · cases h
      · next hc => exact Bool.eq_false_iff.2 hc
    · intro h
      exact if_neg (Bool.eq_false_iff.1 h)

theorem numberSpan_congr {signed : Bool} {spelling : List Char}
    (h : numberSpan signed (cs ++ rest) = (spelling, after ++ rest)) (hrest : Spares rest rest') :
    numberSpan signed (cs ++ rest') = (spelling, after ++ rest') := by
  induction cs generalizing signed spelling with
  | nil =>
    rw [List.nil_append] at h ⊢
    have hlength := congrArg List.length (numberSpan_append signed rest)
    simp only [h, List.length_append] at hlength
    obtain rfl : spelling = [] := List.length_eq_zero_iff.1 (by omega)
    obtain rfl : after = [] := List.length_eq_zero_iff.1 (by omega)
    have hstop := numberSpan_eq_nil_iff.1 h
    refine numberSpan_eq_nil_iff.2 ?_
    cases signed with
    | false => simpa using hrest.number (by simpa using hstop)
    | true => exact hrest.exponent hstop
  | cons c cs ih =>
    rw [List.cons_append, numberSpan] at h ⊢
    split at h
    · next hc =>
      obtain ⟨hspelling, hafter⟩ := Prod.mk.inj h
      rw [if_pos hc, ih (Prod.ext rfl hafter), ← hspelling]
    · next hc =>
      obtain ⟨hspelling, hafter⟩ := Prod.mk.inj h
      rw [← List.cons_append, List.append_cancel_right_eq] at hafter
      rw [if_neg hc, ← hafter, ← hspelling]
      rfl

/-- What a lexeme is in front of one text it is in front of every other that the first one
spares. -/
theorem next_congr (h : next c (cs ++ rest) = .ok (l, after ++ rest)) (hrest : Spares rest rest') :
    next c (cs ++ rest') = .ok (l, after ++ rest') := by
  revert h
  fun_cases next c (cs ++ rest) with
  | case1 l hl =>
    intro h
    obtain ⟨rfl, hafter⟩ := Prod.mk.inj (Except.ok.inj h)
    rw [List.append_cancel_right_eq] at hafter
    rw [← hafter]
    exact next_of_mark? hl
  | case2 hmark op rest' hop =>
    intro h
    obtain ⟨rfl, rfl⟩ := Prod.mk.inj (Except.ok.inj h)
    exact next_of_comparison? hmark (comparison?_congr hop hrest)
  | case5 _ _ _ hquote content rest' hcontent =>
    intro h
    obtain ⟨rfl, rfl⟩ := Prod.mk.inj (Except.ok.inj h)
    have hne : c ≠ '\\' := by rcases hquote with rfl | rfl <;> decide
    obtain ⟨body, hbody, hspelling⟩ := (quoted_eq_ok_iff hne).1 hcontent
    rw [← List.cons_append, ← List.append_assoc, List.append_cancel_right_eq] at hbody
    rw [hbody, List.append_assoc]
    exact next_quote hquote (quoted_of_quotes hne hspelling)
  | case6 _ _ _ _ hc spelling rest' hspan x hx =>
    intro h
    obtain ⟨rfl, rfl⟩ := Prod.mk.inj (Except.ok.inj h)
    have hspan' := numberSpan_congr hspan hrest
    have hnext := @next_number c (cs ++ _) x hc (by rw [hspan', hx])
    rwa [hspan'] at hnext
  | case8 _ _ _ _ _ hc =>
    intro h
    obtain ⟨rfl, hafter⟩ := Prod.mk.inj (Except.ok.inj h)
    obtain ⟨htake, hdrop⟩ := Text.span_congr hafter hrest.word
    rw [← htake, ← hdrop]
    exact next_word hc
  | case3 | case4 | case7 | case9 =>
    intro h
    cases h

end Next

section Before

/-- In front of the rest the text is scanned as the tokens, whose sources end with the text. -/
inductive Before (rest : List Char) : List Char → List Token → Prop
  | nil : Before rest [] []
  | blank {c : Char} {cs : List Char} {ts : List Token} :
      Text.isBlank c → Before rest cs ts → Before rest (c :: cs) ts
  | token {c : Char} {cs after : List Char} {l : Lexeme} {ts : List Token} :
      Text.isBlank c = false → next c (cs ++ rest) = .ok (l, after ++ rest) →
      Before rest after ts → Before rest (c :: cs) (⟨l, c :: cs⟩ :: ts)

/-- The token in a text that goes on after its source. -/
def inFront (rest : List Char) (t : Token) : Token := ⟨t.lexeme, t.source ++ rest⟩

@[simp] theorem lexeme_inFront (rest : List Char) (t : Token) :
    (t.inFront rest).lexeme = t.lexeme := rfl

@[simp] theorem inFront_nil : inFront [] = id := by
  funext t
  simp [inFront]

@[simp] theorem inFront_inFront (t : Token) :
    (t.inFront rest).inFront rest' = t.inFront (rest ++ rest') := by simp [inFront]

variable {ts us vs : List Token} {t : Token}

theorem Before.congr (h : Before rest cs ts) (hrest : Spares rest rest') : Before rest' cs ts := by
  induction h with
  | nil => exact .nil
  | blank hc _ ih => exact .blank hc ih
  | token hc hl _ ih => exact .token hc (next_congr hl hrest) ih

theorem Before.scan_append (h : Before rest cs ts) :
    scan (cs ++ rest) = (scan rest).map (ts.map (inFront rest) ++ ·) := by
  induction h with
  | nil =>
    rw [List.nil_append]
    cases scan rest <;> rfl
  | blank hc _ ih => rw [List.cons_append, scan_blank hc, ih]
  | token hc hl _ ih =>
    rw [List.cons_append, scan_of_next hc hl, ih]
    cases scan rest <;> rfl

theorem Before.blanks {ds : List Char} (hds : ∀ c ∈ ds, Text.isBlank c) (h : Before rest cs ts) :
    Before rest (ds ++ cs) ts := by
  induction ds with
  | nil => exact h
  | cons d ds ih =>
    rw [List.forall_mem_cons] at hds
    exact .blank hds.1 (ih hds.2)

/-- By the steps of scanning: each skips blanks and takes a lexeme. -/
theorem before_of_scan (h : scan cs = .ok ts) : Before [] cs ts := by
  fun_induction scan cs generalizing ts with
  | case1 cs htrim =>
    cases h
    have hblank : ∀ c ∈ cs, Text.isBlank c := List.dropWhile_eq_nil_iff.1 htrim
    simpa using Before.blanks hblank .nil
  | case2 | case3 => cases h
  | case4 cs c cs' htrim l after hl ts' hts' ih =>
    cases h
    have hc : Text.isBlank c = false := by
      have hhead := List.head?_dropWhile_not Text.isBlank cs
      rw [← Text.trimStart, htrim] at hhead
      exact hhead
    have hblanks : ∀ d ∈ cs.takeWhile Text.isBlank, Text.isBlank d :=
      fun d hd => List.mem_takeWhile_imp hd
    have hcs : cs.takeWhile Text.isBlank ++ c :: cs' = cs := by
      rw [← htrim]
      exact List.takeWhile_append_dropWhile
    rw [← hcs]
    exact .blanks hblanks (.token hc (by simpa using hl) (ih hts'))

theorem mayContinue_eq_false_of_isBlank (h : Text.isBlank c) : mayContinue c = false := by
  rw [Bool.eq_false_iff]
  intro hc
  simp only [mayContinue, mayExtend, isSign, Bool.or_eq_true, beq_iff_eq] at hc
  obtain ((hc | rfl) | rfl) | rfl | rfl := hc
  · rw [Text.isBlank_eq_false_of_isFieldPart hc] at h
    cases h
  all_goals revert h; decide

theorem Spares.of_blanks {ds : List Char} (hne : ds ≠ []) (hds : ∀ c ∈ ds, Text.isBlank c)
    (rest' : List Char) : Spares rest (ds ++ rest') := by
  obtain ⟨d, ds, rfl⟩ := List.exists_cons_of_ne_nil hne
  exact .of_stops
    ((Text.stops_cons ..).2 (mayContinue_eq_false_of_isBlank (hds d List.mem_cons_self)))

/-- A text is scanned by itself where blanks follow it. -/
theorem scan_append_blanks {ds : List Char} (h : scan cs = .ok ts) (hne : ds ≠ [])
    (hds : ∀ c ∈ ds, Text.isBlank c) (rest : List Char) : scan ((cs ++ ds) ++ rest) =
      (scan rest).map (ts.map (inFront (ds ++ rest)) ++ ·) := by
  have hbefore := (before_of_scan h).congr (.of_blanks hne hds rest)
  rw [List.append_assoc, hbefore.scan_append, scan_blanks hds]

/-- A text is cut in front of any of its tokens. -/
theorem Before.exists_append (h : Before rest cs (us ++ t :: vs)) : ∃ ds ts,
    cs = ds ++ t.source ∧ us = ts.map (inFront t.source) ∧ Before (t.source ++ rest) ds ts := by
  generalize hfull : us ++ t :: vs = full at h
  induction h generalizing us with
  | nil => cases us <;> cases hfull
  | @blank c cs ts hc _ ih =>
    obtain ⟨ds, ts, rfl, hus, hds⟩ := ih hfull
    exact ⟨c :: ds, ts, rfl, hus, .blank hc hds⟩
  | @token c cs after l ts hc hl hafter ih =>
    cases us with
    | nil =>
      cases hfull
      exact ⟨[], [], rfl, rfl, .nil⟩
    | cons u us =>
      obtain ⟨rfl, hmore⟩ := List.cons.inj hfull
      obtain ⟨ds, ts, rfl, rfl, hds⟩ := ih hmore
      obtain ⟨spelling, hspelling⟩ := next_suffix hl
      rw [← List.append_assoc, List.append_cancel_right_eq, ← List.append_assoc] at hspelling
      subst hspelling
      rw [List.append_assoc, List.append_assoc ds] at hl
      exact ⟨c :: (spelling ++ ds), ⟨l, c :: (spelling ++ ds)⟩ :: ts, rfl, rfl,
        .token hc hl hds⟩

theorem Before.scan_eq (h : Before rest cs ts) : scan cs = .ok ts := by
  simpa [scan_nil, Except.map] using (h.congr (.nil rest)).scan_append

/-- A scanned text is cut between any of its tokens. -/
theorem exists_append_of_scan (h : scan cs = .ok (us ++ vs)) :
    ∃ ds es ts, cs = ds ++ es ∧ us = ts.map (inFront es) ∧ scan ds = .ok ts := by
  cases vs with
  | nil =>
    rw [List.append_nil] at h
    exact ⟨cs, [], us, by simp, by simp, h⟩
  | cons t vs =>
    obtain ⟨ds, ts, hcs, hus, hds⟩ := (before_of_scan h).exists_append
    exact ⟨ds, t.source, ts, hcs, hus, hds.scan_eq⟩

end Before

theorem Scanned.append (h : Scanned cs ls) (hrest : Text.Stops mayContinue rest)
    (h' : Scanned rest ms) : Scanned (cs ++ rest) (ls ++ ms) := by
  obtain ⟨ts, hts, rfl⟩ := h
  obtain ⟨us, hus, rfl⟩ := h'
  have hscan := ((before_of_scan hts).congr (.of_stops hrest)).scan_append
  rw [hus] at hscan
  exact ⟨_, hscan, by simp [Function.comp_def]⟩

theorem Scanned.enclosed (h : Scanned cs ls) :
    Spells ('(' :: (cs ++ [')'])) (.openParen :: (ls ++ [.closeParen])) := by
  have hclosed : Spells (cs ++ [')']) (ls ++ [.closeParen]) := by
    intro rest ms _ hms
    rw [List.append_assoc, List.append_assoc]
    exact h.append ((Text.stops_cons ..).2 rfl) (.of_next rfl rfl hms)
  exact .mark rfl hclosed

end Token

end RuleFilter
