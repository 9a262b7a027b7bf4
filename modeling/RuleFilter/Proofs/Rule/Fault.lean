import RuleFilter.Proofs.Reading.Complaint
import RuleFilter.Proofs.Reading.Depth
import RuleFilter.Proofs.Rule.Parse
import RuleFilter.Proofs.Token.Located

/-!
Where filter text is refused. The error of a text that is scanned but is no rule stands at the first
lexeme, or at the end of the text, that no rule goes on with: up to there the text is the beginning
of another one that is read.
-/

namespace RuleFilter.Rule

open Grammar Reading Token

section Ends

variable {α : Type}

theorem prefix_end_iff {as bs : List α} {a : Option α} :
    as.map some ++ [a] <+: bs.map some ++ [none] ↔ ∃ cs, bs = as ++ cs ∧ cs.head? = a := by
  induction as generalizing bs with
  | nil => cases bs <;> simp [List.cons_prefix_cons, @eq_comm _ _ a]
  | cons a' as ih =>
    cases bs with
    | nil => simp [List.cons_prefix_cons]
    | cons b bs => simp [List.cons_prefix_cons, ih, and_assoc, @eq_comm _ b]

end Ends

section Refused

variable {limits : Limits} {text : String} {us vs ts : List Token}

/-- Text that is scanned as lexemes can go on in every way in which they can go on. -/
theorem exists_parse_of_completable {cs : List Char} (h : scan cs = .ok (us ++ vs))
    (hus : Completable (Derives (.chain .or)) (us.map Token.lexeme)) :
    ∃ text after r, located text = .ok (us.map (place cs) ++ after) ∧
      ∀ limits : Limits, (∀ limit, text.utf8ByteSize ≤ limits.of limit) →
        parse limits text = .ok r := by
  obtain ⟨ds, es, ts, rfl, rfl, hds⟩ := exists_append_of_scan h
  obtain ⟨ms, r, ⟨fs, hfs⟩, hr⟩ := hus
  obtain ⟨ws, hws, rfl⟩ := hfs.scanned
  let text := String.ofList (ds ++ ' ' :: fs)
  have htext : text.toList = ds ++ ' ' :: fs := String.toList_ofList
  have hscan : scan text.toList = .ok (ts.map (inFront (' ' :: fs)) ++ ws) := by
    have hblank : ∀ c ∈ [' '], Text.isBlank c := List.forall_mem_singleton.2 rfl
    have happend := scan_append_blanks hds (List.cons_ne_nil ' ' []) hblank fs
    rw [hws, List.append_assoc] at happend
    rw [htext]
    exact happend
  have hplace : (ts.map (inFront (' ' :: fs))).map (place text.toList) =
      (ts.map (inFront es)).map (place (ds ++ es)) := by
    simp [htext, place_inFront]
  refine ⟨text, ws.map (place text.toList) ++ [(none, text.utf8ByteSize)], r, ?_, ?_⟩
  · refine located_eq_ok_iff.2 ⟨_, hscan, ?_⟩
    rw [List.map_append, hplace, List.append_assoc]
  · intro limits hlimits
    refine (parse_iff_derives hlimits r).2 ⟨_, hscan, ?_⟩
    simpa [Function.comp_def] using hr

theorem parse_eq_error_of_scan (h : ∀ limit, text.utf8ByteSize ≤ limits.of limit)
    (hts : scan text.toList = .ok ts) {e : FilterError} (he : parse limits text = .error e) :
    ∃ f, wholeRule limits.depth ts = .error f ∧ e = f.toError text.toList limits := by
  have hsize : limits.check .size text.utf8ByteSize = .ok () := Limits.check_eq_ok_iff.2 (h .size)
  cases hwhole : wholeRule limits.depth ts with
  | error f =>
    have hparse : parse limits text = .error (f.toError text.toList limits) := by
      simp only [parse, hsize, hts]
      show ((wholeRule limits.depth ts).mapError _ >>= _) = _
      rw [hwhole]
      rfl
    exact ⟨f, rfl, Except.error.inj (he.symm.trans hparse)⟩
  | ok r =>
    have hderives := (wholeRule_eq_ok_iff.1 hwhole).1
    rw [(parse_iff_derives h r).2 ⟨ts, hts, hderives⟩] at he
    cases he

/-- Text that is scanned but not read is refused for the first of its lexemes, or for its end, that
comes in no text that is read after just the lexemes before it: these do begin such a text. -/
theorem parse_error_at_first_impossible (h : ∀ limit, text.utf8ByteSize ≤ limits.of limit)
    {ps : List (Option Lexeme × Nat)} (hps : located text = .ok ps) {e : FilterError}
    (he : parse limits text = .error e) :
    ∃ before found position after expected, ps = before ++ (found, position) :: after ∧
      e = .malformed position (.unexpected expected found) ∧
      (∃ text' after' r, located text' = .ok (before ++ after') ∧
        ∀ limits' : Limits, (∀ limit, text'.utf8ByteSize ≤ limits'.of limit) →
          parse limits' text' = .ok r) ∧
      ∀ limits' text' ps' r, located text' = .ok ps' → parse limits' text' = .ok r →
        ¬ before.map Prod.fst ++ [found] <+: ps'.map Prod.fst := by
  obtain ⟨ts, hts, rfl⟩ := located_eq_ok_iff.1 hps
  obtain ⟨f, hf, rfl⟩ := parse_eq_error_of_scan h hts he
  have hlength : ts.length ≤ limits.depth :=
    Nat.le_trans (length_le_of_scan hts) (Nat.le_trans (Text.length_toList_le text) (h .depth))
  obtain ⟨rfl, hdeep⟩ | ⟨us, rest, expected, rfl, rfl, hus, hsame⟩ := complains_wholeRule hf
  · exact absurd hlength (Nat.not_le.2 hdeep)
  · have himpossible : ∀ limits' text' ps' r, located text' = .ok ps' →
        parse limits' text' = .ok r → ¬ (us.map (place text.toList)).map Prod.fst ++
          [rest.head?.map lexeme] <+: ps'.map Prod.fst := by
      intro limits' text' ps' r hps' hparse hprefix
      obtain ⟨ts', hts', rfl⟩ := located_eq_ok_iff.1 hps'
      have hlexemes (cs : List Char) (ts : List Token) :
          (ts.map (place cs)).map Prod.fst = (ts.map lexeme).map some := by
        simp [place, Function.comp_def]
      rw [List.map_append, hlexemes, hlexemes] at hprefix
      obtain ⟨ls, hls, hnext⟩ := prefix_end_iff.1 hprefix
      obtain ⟨us', rest', rfl, hus', rfl⟩ := List.map_eq_append_iff.1 hls
      rw [List.head?_map] at hnext
      obtain ⟨-, ⟨_, hts'', hr, -⟩, -⟩ := parse_eq_ok_iff_derives.1 hparse
      obtain rfl := Except.ok.inj (hts'.symm.trans hts'')
      have hwhole := wholeRule_of_derives hr limits.depth
      rw [hsame us' rest' ⟨hus'.symm, hnext.symm⟩] at hwhole
      split at hwhole <;> cases hwhole
    have hcompleted := exists_parse_of_completable hts hus
    cases rest with
    | nil =>
      refine ⟨us.map (place text.toList), none, text.utf8ByteSize, [], expected, ?_, ?_,
        hcompleted, himpossible⟩
      · simp
      · rw [List.head?_nil, Reading.Failure.toError, Text.byteLength_toList]
    | cons t rest =>
      refine ⟨us.map (place text.toList), some t.lexeme, t.position text.toList,
        rest.map (place text.toList) ++ [(none, text.utf8ByteSize)], expected, ?_, rfl,
        hcompleted, himpossible⟩
      simp [place]

/-- The word after `is not` is refused, where only `null` could have gone on. -/
theorem parse_error_at_first_impossible_is :
    let text := "a is not b"
    let limits : Limits := ⟨10, 10, 10⟩
    let ps : List (Option Lexeme × Nat) := [(some (.word "a"), 0), (some (.word "is"), 2),
      (some (.word "not"), 5), (some (.word "b"), 9), (none, 10)]
    let e := FilterError.malformed 9 (.unexpected (.keyword .null) (some (.word "b")))
    ((∀ limit, text.utf8ByteSize ≤ limits.of limit) ∧ located text = .ok ps ∧
        parse limits text = .error e) ∧
      ∀ limits' text' ps' r, located text' = .ok ps' → parse limits' text' = .ok r →
        ¬ [some (.word "a"), some (.word "is"), some (.word "not"), some (.word "b")] <+:
          ps'.map Prod.fst := by
  intro text limits ps e
  have hlimits : ∀ limit, text.utf8ByteSize ≤ limits.of limit := by
    intro limit
    cases limit <;> decide
  have hps : located text = .ok ps := by decide +kernel
  have he : parse limits text = .error e := by decide +kernel
  obtain ⟨before, _, _, after, _, hplaces, heq, -, himpossible⟩ :=
    parse_error_at_first_impossible hlimits hps he
  simp only [e, FilterError.malformed.injEq, TextFault.unexpected.injEq] at heq
  obtain ⟨rfl, -, rfl⟩ := heq
  have hbefore : before = ps.take 3 := by
    rcases before with _ | ⟨p₀, _ | ⟨p₁, _ | ⟨p₂, _ | ⟨p₃, _ | ⟨p₄, before⟩⟩⟩⟩⟩ <;>
      simp_all [ps]
  exact ⟨⟨hlimits, hps, he⟩, by simpa [hbefore, ps] using himpossible⟩

end Refused

end RuleFilter.Rule
