import RuleFilter.Proofs.Binary64.Exact
import RuleFilter.Proofs.Token.Append

/-!
Integers as lexemes. An integer is one number lexeme or none at all, and the number is exact where
binary64 tells the integer apart from all others.
-/

namespace RuleFilter.Token

variable {cs : List Char} {ls : List Lexeme} {x : Binary64.Finite} {m z : Int}

theorem exists_cons_of_int? (h : Decimal.int? cs = some z) :
    ∃ c ds, cs = c :: ds ∧ (c.isDigit || isSign c) ∧ ∀ d ∈ ds, d.isDigit || d == '.' := by
  obtain ⟨negative, ds, hsign, hne, hds, -⟩ := Decimal.int?_eq_some_iff.1 h
  have hpart : ∀ d ∈ ds, d.isDigit || d == '.' := fun d hd => by simp [hds d hd]
  unfold Decimal.splitSign at hsign
  split at hsign
  all_goals obtain ⟨-, rfl⟩ := Prod.mk.inj hsign
  · exact ⟨'-', _, rfl, rfl, hpart⟩
  · exact ⟨'+', _, rfl, rfl, hpart⟩
  · obtain ⟨d, ds, rfl⟩ := List.exists_cons_of_ne_nil hne
    exact ⟨d, ds, rfl, by simp [hds d], fun e he => hpart e (by simp [he])⟩

/-- Where the digits of an integer are no number, nothing is scanned. -/
theorem scanned_iff_of_int? (h : Decimal.int? cs = some z) :
    Scanned cs ls ↔ ∃ x, number? cs = some x ∧ ls = [.number x] := by
  obtain ⟨c, ds, rfl, hc, hds⟩ := exists_cons_of_int? h
  constructor
  · intro hls
    cases hx : number? (c :: ds) with
    | some x =>
      obtain ⟨ts, hts, rfl⟩ := hls
      obtain ⟨us, hus, hx⟩ := (spells_of_number? hc hds hx).scanned
      cases hts.symm.trans hus
      exact ⟨x, rfl, hx⟩
    | none =>
      have hspan := numberSpan_append_stop hds (Text.stops_nil _)
      rw [List.append_nil] at hspan
      obtain ⟨ts, hts, -⟩ := hls
      cases before_of_scan hts with
      | blank hblank _ => simp [isBlank_eq_false_of_numeric hc] at hblank
      | token _ hl _ =>
        rw [List.append_nil, next_numeric hc, hspan, hx] at hl
        cases hl
  · rintro ⟨x, hx, rfl⟩
    exact (spells_of_number? hc hds hx).scanned

theorem exists_number?_of_int? (h : Decimal.int? cs = some z) : ∃ negative n,
    number? cs = (Binary64.ofUnits negative (n * Binary64.one) 1).finite? ∧
      z = if negative then -(n : Int) else n := by
  obtain ⟨negative, n, hread, hz⟩ := Decimal.exists_ofChars?_of_int? h
  exact ⟨negative, n, by rw [number?, hread, Option.bind_some, Decimal.ofDecimal_whole], hz⟩

/-- An integer of up to 53 binary places is read as what it is. -/
theorem number?_exact (h : Decimal.int? cs = some z) (hz : z.natAbs < 2 ^ 53) :
    ∃ x : Binary64.Finite, number? cs = some x ∧ (Binary64.finite x).IsInteger z := by
  obtain ⟨negative, n, hnumber, rfl⟩ := exists_number?_of_int? h
  have hn : n < 2 ^ 53 := by
    revert hz
    cases negative <;> simp
  obtain ⟨x, hx, hsign, hunits⟩ := Binary64.exists_ofUnits_exact negative hn
  refine ⟨x, by rw [hnumber, hx]; rfl, Binary64.isInteger_finite.2 ?_⟩
  rw [Binary64.Finite.signedUnits, hsign, hunits, Int.natCast_mul]
  cases negative with
  | false => rw [if_neg Bool.false_ne_true, if_neg Bool.false_ne_true]
  | true => rw [if_pos rfl, if_pos rfl, Int.neg_mul]

/-- What is read as an integer of up to 53 binary places has no more places. -/
theorem natAbs_lt_of_number? (h : Decimal.int? cs = some z) (hx : number? cs = some x)
    (hm : (Binary64.finite x).IsInteger m) (hlt : m.natAbs < 2 ^ 53) : z.natAbs < 2 ^ 53 := by
  obtain ⟨negative, n, hnumber, rfl⟩ := exists_number?_of_int? h
  have hround : Binary64.ofUnits negative (n * Binary64.one) 1 = x := by
    rw [hnumber] at hx
    exact Binary64.finite?_eq_some_iff.1 hx
  have hunits : x.units = m.natAbs * Binary64.one := by
    rw [← Binary64.Finite.natAbs_signedUnits, Binary64.isInteger_finite.1 hm, Int.natAbs_mul,
      Int.natAbs_natCast]
  have hn : n < 2 ^ 53 := by
    by_contra hlarge
    have hle := Binary64.two_pow_le_units_of_ofUnits (Nat.not_lt.1 hlarge) hround
    rw [hunits] at hle
    exact absurd (Nat.le_of_mul_le_mul_right hle Binary64.one_pos) (Nat.not_le.2 hlt)
  cases negative <;> simpa using hn

end RuleFilter.Token
