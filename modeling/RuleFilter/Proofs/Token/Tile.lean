import RuleFilter.Proofs.Token.Located

/-!
How lexemes cover a text. Each one stands in the text as characters that are the lexeme by
themselves too, blanks stand between them, and the text has nothing else; so the places of lexemes
are places in the text, and so are those of errors.
-/

namespace RuleFilter

theorem Text.byteLength_pos {cs : List Char} (h : cs ≠ []) : 0 < byteLength cs := by
  obtain ⟨c, cs, rfl⟩ := List.exists_cons_of_ne_nil h
  exact Nat.add_pos_left c.utf8Size_pos _

namespace Token

variable {c : Char} {cs ds spelling after : List Char} {l : Lexeme} {ls : List Lexeme}
  {ts : List Token} {ps : List (Option Lexeme × Nat)} {n : Nat}

section Alone

/-- The characters that a lexeme takes of a text are the lexeme by themselves. -/
theorem next_alone (h : next c (spelling ++ after) = .ok (l, after)) :
    next c spelling = .ok (l, []) := by
  have halone := @next_congr c spelling [] after [] l h (.nil after)
  rwa [List.append_nil] at halone

theorem scan_alone (hc : Text.isBlank c = false) (h : next c (spelling ++ after) = .ok (l, after)) :
    scan (c :: spelling) = .ok [⟨l, c :: spelling⟩] := by
  rw [scan_of_next hc (next_alone h), scan_nil]
  rfl

theorem located_alone (hc : Text.isBlank c = false)
    (h : next c (spelling ++ after) = .ok (l, after)) : located (String.ofList (c :: spelling)) =
      .ok [(some l, 0), (none, Text.byteLength (c :: spelling))] := by
  refine located_eq_ok_iff.2 ⟨_, by rw [String.toList_ofList]; exact scan_alone hc h, ?_⟩
  rw [Text.utf8ByteSize_ofList, String.toList_ofList]
  simp [place, position, offset]

theorem isNumberPart_of_mem_numberSpan {signed : Bool} {d : Char}
    (hd : d ∈ (numberSpan signed cs).1) : isNumberPart d ∨ isSign d := by
  fun_induction numberSpan signed cs with
  | case1 | case3 => cases hd
  | case2 signed c cs isExponent hc ih =>
    obtain rfl | hmem := List.mem_cons.1 hd
    · have hpart : isNumberPart d || (signed && isSign d) := hc
      simp only [Bool.or_eq_true, Bool.and_eq_true] at hpart
      exact hpart.imp_right And.right
    · exact ih hmem

theorem isBlank_getLast_of_comparison? {op : Operator} (h : comparison? cs = some (op, [])) :
    ∀ d ∈ cs.getLast?, Text.isBlank d = false := by
  unfold comparison? at h
  split at h <;> cases h
  all_goals
    rintro d ⟨⟩
    rfl

theorem isBlank_getLast_of_next (hc : Text.isBlank c = false) (h : next c cs = .ok (l, [])) :
    ∀ d ∈ (c :: cs).getLast?, Text.isBlank d = false := by
  have hparts (hcs : ∀ d ∈ cs, Text.isFieldPart d ∨ isSign d) :
      ∀ d ∈ (c :: cs).getLast?, Text.isBlank d = false := by
    intro d hd
    obtain rfl | hmem := List.mem_cons.1 (List.mem_of_getLast? hd)
    · exact hc
    · obtain hpart | hsign := hcs d hmem
      · exact Text.isBlank_eq_false_of_isFieldPart hpart
      · exact isBlank_eq_false_of_numeric (by simp [hsign])
  revert h
  fun_cases next c cs with
  | case1 =>
    intro h
    cases h
    exact hparts fun _ hd => absurd hd List.not_mem_nil
  | case2 hmark op rest hop =>
    intro h
    cases h
    exact isBlank_getLast_of_comparison? hop
  | case5 _ _ _ hquote content rest hcontent =>
    intro h
    cases h
    have hne : c ≠ '\\' := by rcases hquote with rfl | rfl <;> decide
    obtain ⟨body, rfl, -⟩ := (quoted_eq_ok_iff hne).1 hcontent
    rw [← List.cons_append, List.getLast?_concat]
    simpa using hc
  | case6 _ _ _ _ _ spelling rest hspan =>
    intro h
    cases h
    have hcs := numberSpan_append false cs
    rw [hspan, List.append_nil] at hcs
    subst hcs
    refine hparts fun d hd => ?_
    have hd' : d ∈ (numberSpan false spelling).1 := by rwa [hspan]
    exact (isNumberPart_of_mem_numberSpan hd').imp_left isFieldPart_of_isNumberPart
  | case8 =>
    intro h
    obtain ⟨-, hrest⟩ := Prod.mk.inj (Except.ok.inj h)
    exact hparts fun d hd => .inl (List.dropWhile_eq_nil_iff.1 hrest d hd)
  | case3 | case4 | case7 | case9 =>
    intro h
    cases h

end Alone

section Ends

variable {blanks : List Char}

/-- A lexeme ends before the blanks at the end of a text. -/
theorem exists_append_of_next (hblanks : ∀ d ∈ blanks, Text.isBlank d)
    (hc : Text.isBlank c = false) (h : next c (cs ++ blanks) = .ok (l, after)) :
    ∃ rest, after = rest ++ blanks := by
  obtain ⟨spelling, hspelling⟩ := next_suffix h
  obtain ⟨rest, -, hafter⟩ | ⟨ds, rfl, rfl⟩ := List.append_eq_append_iff.1 hspelling
  · exact ⟨rest, hafter⟩
  · rw [List.forall_mem_append] at hblanks
    rw [← List.append_assoc] at h
    have hlast := isBlank_getLast_of_next hc (next_alone h)
    obtain rfl | ⟨front, d, rfl⟩ := List.eq_nil_or_concat ds
    · exact ⟨[], rfl⟩
    · have hd : Text.isBlank d = false := by
        refine hlast d ?_
        rw [List.concat_eq_append, ← List.append_assoc, ← List.cons_append, List.getLast?_concat]
        rfl
      have hd' := hblanks.1 d (by simp)
      rw [hd] at hd'
      cases hd'

theorem Before.exists_of_append_blanks (hblanks : ∀ d ∈ blanks, Text.isBlank d)
    (h : Before [] (cs ++ blanks) ts) :
    ∃ us, Before blanks cs us ∧ us.map lexeme = ts.map lexeme := by
  generalize htext : cs ++ blanks = text at h
  induction h generalizing cs with
  | nil =>
    obtain ⟨rfl, -⟩ := List.append_eq_nil_iff.1 htext
    exact ⟨[], .nil, rfl⟩
  | @blank c text ts hc hrest ih =>
    cases cs with
    | nil =>
      have hscan := (Before.blank hc hrest).scan_eq
      rw [← htext, List.nil_append, ← List.append_nil blanks, scan_blanks hblanks,
        scan_nil] at hscan
      cases hscan
      exact ⟨[], .nil, rfl⟩
    | cons d cs =>
      obtain ⟨rfl, rfl⟩ := List.cons.inj htext
      obtain ⟨us, hus, hlexemes⟩ := ih rfl
      exact ⟨us, .blank hc hus, hlexemes⟩
  | @token c text after l ts hc hl _ ih =>
    cases cs with
    | nil =>
      rw [List.nil_append] at htext
      rw [htext] at hblanks
      rw [hblanks c List.mem_cons_self] at hc
      cases hc
    | cons d cs =>
      obtain ⟨rfl, rfl⟩ := List.cons.inj htext
      rw [List.append_nil, List.append_nil] at hl
      obtain ⟨rest, rfl⟩ := exists_append_of_next hblanks hc hl
      obtain ⟨us, hus, hlexemes⟩ := ih rfl
      exact ⟨_, .token hc hl hus, by rw [List.map_cons, List.map_cons, hlexemes]⟩

/-- Blanks at the end of a text change none of its lexemes, and whether there are any. -/
theorem scanned_append_blanks_iff (hblanks : ∀ d ∈ blanks, Text.isBlank d) :
    Scanned (cs ++ blanks) ls ↔ Scanned cs ls := by
  constructor
  · rintro ⟨ts, hts, rfl⟩
    obtain ⟨us, hus, hlexemes⟩ := (before_of_scan hts).exists_of_append_blanks hblanks
    exact ⟨us, hus.scan_eq, hlexemes⟩
  · intro h
    have hstops : Text.Stops mayContinue blanks := fun d hd =>
      mayContinue_eq_false_of_isBlank (hblanks d (List.mem_of_head? hd))
    have hnone : Scanned blanks [] := by
      rw [Scanned, ← List.append_nil blanks, scan_blanks hblanks]
      exact scanned_nil
    simpa using h.append hstops hnone

end Ends

section Tiles

/-- From a byte offset on the text is these lexemes, each one where its characters begin, and at
last its end. -/
inductive Tiled : Nat → List Char → List (Option Lexeme × Nat) → Prop
  | finish {n : Nat} {blanks : List Char} : (∀ c ∈ blanks, Text.isBlank c) →
      Tiled n blanks [(none, n + Text.byteLength blanks)]
  | lexeme {n : Nat} {blanks spelling rest : List Char} {l : Lexeme}
      {ps : List (Option Lexeme × Nat)} : (∀ c ∈ blanks, Text.isBlank c) → spelling ≠ [] →
      located (String.ofList spelling) = .ok [(some l, 0), (none, Text.byteLength spelling)] →
      Tiled (n + Text.byteLength (blanks ++ spelling)) rest ps →
      Tiled n (blanks ++ spelling ++ rest) ((some l, n + Text.byteLength blanks) :: ps)

theorem Tiled.blank (hc : Text.isBlank c) (h : Tiled (n + c.utf8Size) cs ps) :
    Tiled n (c :: cs) ps := by
  have hbytes (ds : List Char) : n + Text.byteLength (c :: ds) =
      n + c.utf8Size + Text.byteLength ds := (Nat.add_assoc ..).symm
  cases h with
  | finish hblanks =>
    rw [← hbytes]
    exact .finish (List.forall_mem_cons.2 ⟨hc, hblanks⟩)
  | @lexeme _ blanks spelling rest l ps hblanks hne halone hrest =>
    rw [← hbytes] at hrest ⊢
    exact @Tiled.lexeme n (c :: blanks) spelling rest l ps
      (List.forall_mem_cons.2 ⟨hc, hblanks⟩) hne halone hrest

/-- By the blanks and lexemes of the text; `front` is what stands in front of it. -/
theorem tiled_of_before (h : Before [] cs ts) (front : List Char) :
    Tiled (Text.byteLength front) cs
      (ts.map (place (front ++ cs)) ++ [(none, Text.byteLength (front ++ cs))]) := by
  induction h generalizing front with
  | nil =>
    have hend : Tiled (Text.byteLength front) [] [(none, Text.byteLength front + 0)] :=
      .finish fun c hc => nomatch hc
    simpa using hend
  | @blank c cs ts hc _ ih =>
    have hrest := ih (front ++ [c])
    rw [Text.byteLength_append, List.append_assoc, List.singleton_append] at hrest
    exact hrest.blank hc
  | @token c cs after l ts hc hl _ ih =>
    rw [List.append_nil, List.append_nil] at hl
    obtain ⟨spelling, rfl⟩ := next_suffix hl
    have hrest := ih (front ++ (c :: spelling))
    rw [List.append_assoc, List.cons_append, Text.byteLength_append] at hrest
    have hplace : place (front ++ c :: (spelling ++ after)) ⟨l, c :: (spelling ++ after)⟩ =
        (some l, Text.byteLength front) := by
      rw [place, position, offset, Text.byteLength_append, Nat.add_sub_cancel]
    rw [List.map_cons, List.cons_append, hplace]
    exact @Tiled.lexeme _ [] (c :: spelling) after l _ (fun d hd => nomatch hd)
      (List.cons_ne_nil c spelling) (located_alone hc hl) hrest

/-- The end of the text comes last, and nowhere else. -/
theorem Tiled.exists_append (h : Tiled n cs ps) : ∃ qs,
    ps = qs ++ [(none, n + Text.byteLength cs)] ∧ ∀ q ∈ qs, q.1 ≠ none := by
  induction h with
  | finish _ => exact ⟨[], rfl, fun q hq => nomatch hq⟩
  | @lexeme n blanks spelling rest l ps _ _ _ _ ih =>
    obtain ⟨qs, rfl, hqs⟩ := ih
    refine ⟨(some l, n + Text.byteLength blanks) :: qs, ?_, ?_⟩
    · rw [Text.byteLength_append _ rest, Nat.add_assoc, List.cons_append]
    · exact List.forall_mem_cons.2 ⟨Option.some_ne_none l, hqs⟩

theorem Tiled.le (h : Tiled n cs ps) : ∀ p ∈ ps, n ≤ p.2 := by
  induction h with
  | finish _ => simp
  | lexeme _ _ _ _ ih =>
    refine List.forall_mem_cons.2 ⟨Nat.le_add_right .., fun p hp => ?_⟩
    exact Nat.le_trans (Nat.le_add_right ..) (ih p hp)

/-- Every lexeme has characters, so that each place is after those before it. -/
theorem Tiled.pairwise (h : Tiled n cs ps) : (ps.map Prod.snd).Pairwise (· < ·) := by
  induction h with
  | finish _ => simp
  | @lexeme n blanks spelling rest l ps _ hne _ hrest ih =>
    refine List.pairwise_cons.2 ⟨List.forall_mem_map.2 fun p hp => ?_, ih⟩
    have hle := hrest.le p hp
    have hpos := Text.byteLength_pos hne
    rw [Text.byteLength_append] at hle
    show n + Text.byteLength blanks < p.2
    omega

end Tiles

/-- What a text ends with begins at a boundary between its characters. -/
theorem isValid_offset {text : String} {source : List Char} (h : source <:+ text.toList) :
    (⟨offset text.toList source⟩ : String.Pos.Raw).IsValid text := by
  obtain ⟨front, hfront⟩ := h
  refine String.Pos.Raw.isValid_iff_exists_append.2
    ⟨String.ofList front, String.ofList source, ?_, ?_⟩
  · rw [← String.ofList_append, hfront, String.ofList_toList]
  · rw [← hfront, offset, Text.byteLength_append, Nat.add_sub_cancel, ← Text.utf8ByteSize_ofList]
    rfl

/-- Lexemes and blanks cover every text that is scanned: each lexeme has characters of its own,
which are the same lexeme where nothing else is, and its place is where they begin. Places increase
up to the end of the text. An error has the place of a character or of the end. -/
theorem located_tiled (text : String) :
    (∀ ps, located text = .ok ps → Tiled 0 text.toList ps ∧ (ps.map Prod.snd).Pairwise (· < ·) ∧
        ∃ qs, ps = qs ++ [(none, text.utf8ByteSize)] ∧ ∀ q ∈ qs, q.1 ≠ none) ∧
      ∀ e, located text = .error e → ∃ position fault, e = .malformed position fault ∧
        position ≤ text.utf8ByteSize ∧ (⟨position⟩ : String.Pos.Raw).IsValid text := by
  constructor
  · intro ps hps
    obtain ⟨ts, hts, rfl⟩ := located_eq_ok_iff.1 hps
    have htiled : Tiled 0 text.toList
        (ts.map (place text.toList) ++ [(none, Text.byteLength text.toList)]) :=
      tiled_of_before (before_of_scan hts) []
    rw [Text.byteLength_toList] at htiled
    obtain ⟨qs, hqs, hsome⟩ := htiled.exists_append
    refine ⟨htiled, htiled.pairwise, qs, ?_, hsome⟩
    rw [hqs, Text.byteLength_toList, Nat.zero_add]
  · intro e he
    cases hscan : scan text.toList with
    | ok ts => rw [located, hscan] at he; cases he
    | error f =>
      rw [located_of_error hscan] at he
      cases he
      have hvalid := isValid_offset (within_of_scan hscan).source
      exact ⟨_, _, rfl, hvalid.le_rawEndPos, hvalid⟩

/-- Blanks of two bytes and a string that holds its own quote; and a letter that begins nothing. -/
theorem located_tiled_accents :
    let ps := [(some (.word "a"), 2), (some (.compare .neq), 3), (some (.string "é'"), 5),
      (none, 12)]
    (located "\u00a0a<>'é\\'' " = .ok ps ∧ Tiled 0 "\u00a0a<>'é\\'' ".toList ps) ∧
      located "'é' ï" = .error (.malformed 5 (.strayCharacter 'ï')) ∧
        (⟨5⟩ : String.Pos.Raw).IsValid "'é' ï" := by
  intro ps
  have hps : located "\u00a0a<>'é\\'' " = .ok ps := by decide +kernel
  have he : located "'é' ï" = .error (.malformed 5 (.strayCharacter 'ï')) := by decide +kernel
  obtain ⟨position, fault, herror, -, hvalid⟩ := (located_tiled "'é' ï").2 _ he
  cases herror
  exact ⟨⟨hps, ((located_tiled _).1 ps hps).1⟩, he, hvalid⟩

end Token

end RuleFilter
