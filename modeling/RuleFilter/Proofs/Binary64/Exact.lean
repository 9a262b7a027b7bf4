import RuleFilter.Proofs.Binary64.Positional
import RuleFilter.Proofs.Binary64.Whole

/-!
Integers that are numbers. Those of up to 53 binary places are magnitudes themselves, so that
rounding leaves them as they are, and no other integer is rounded to one of them.
-/

namespace RuleFilter

namespace Binary64

variable {m n d e k rank : Nat}

theorem finite?_eq_some_iff {x : Binary64} {y : Finite} : x.finite? = some y ↔ x = y := by
  cases x <;> simp [finite?]

theorem units_of_span_le (hlow : span ≤ m) (hhigh : m < 2 * span) (e : Nat) :
    units ((e + 1) * span + (m - span)) = m * 2 ^ e := by
  have hspan : 0 < span := by decide
  have hdiv : ((e + 1) * span + (m - span)) / span = e + 1 := by
    rw [Nat.mul_comm, Nat.mul_add_div hspan, Nat.div_eq_of_lt (by omega), Nat.add_zero]
  have hmod : ((e + 1) * span + (m - span)) % span = m - span := by
    rw [Nat.mul_comm, Nat.mul_add_mod, Nat.mod_eq_of_lt (by omega)]
  have hle : span ≤ (e + 1) * span + (m - span) :=
    (Nat.le_mul_of_pos_left span e.succ_pos).trans (Nat.le_add_right ..)
  rw [units, if_neg (Nat.not_lt.2 hle), hdiv, hmod, Nat.add_sub_cancel' hlow, Nat.add_sub_cancel,
    Nat.pow_eq]

/-- Whatever has up to 53 binary places is a magnitude in every unit that is a power of two. -/
theorem exists_units_eq (hm : m < 2 ^ 53) (e : Nat) : ∃ rank, units rank = m * 2 ^ e := by
  have hspan : 2 * span = 2 ^ 53 := rfl
  induction e generalizing m with
  | zero =>
    by_cases hlow : span ≤ m
    · exact ⟨_, units_of_span_le hlow (hspan ▸ hm) 0⟩
    · exact ⟨m, by rw [units, if_pos (Nat.not_le.1 hlow), pow_zero, Nat.mul_one]⟩
  | succ e ih =>
    by_cases hlow : span ≤ m
    · exact ⟨_, units_of_span_le hlow (hspan ▸ hm) (e + 1)⟩
    · obtain ⟨rank, hrank⟩ := @ih (2 * m) (by omega)
      exact ⟨rank, by rw [hrank]; ring⟩

theorem units_nearestRank (hm : m < 2 ^ 53) (e : Nat) :
    units (nearestRank (m * 2 ^ e) 1) = m * 2 ^ e := by
  obtain ⟨rank, hrank⟩ := exists_units_eq hm e
  have hround := nearestRank_units rank Nat.one_pos
  rw [Nat.mul_one, hrank] at hround
  rw [hround, hrank]

theorem two_pow_le_units (h : (e + 1) * span ≤ rank) : 2 ^ (52 + e) ≤ units rank := by
  have hspan : span = 2 ^ 52 := rfl
  have hdiv : e + 1 ≤ rank / span := (Nat.le_div_iff_mul_le (by decide)).2 h
  have hle : span ≤ rank := (Nat.le_mul_of_pos_left span e.succ_pos).trans h
  rw [units, if_neg (Nat.not_lt.2 hle), Nat.pow_eq]
  calc 2 ^ (52 + e) = span * 2 ^ e := by rw [Nat.pow_add, hspan]
    _ ≤ (span + rank % span) * 2 ^ (rank / span - 1) :=
      Nat.mul_le_mul (Nat.le_add_right ..) (Nat.pow_le_pow_right (by decide) (by omega))

/-- Rounding does not go below a power of two that is a magnitude. -/
theorem two_pow_le_units_nearestRank (hk : 52 ≤ k) (h : 2 ^ k ≤ n / d) :
    2 ^ k ≤ units (nearestRank n d) := by
  obtain ⟨e, rfl⟩ := Nat.exists_eq_add_of_le hk
  have hne : n / d ≠ 0 := (Nat.lt_of_lt_of_le (Nat.two_pow_pos _) h).ne'
  exact two_pow_le_units (span_le_nearestRank ((Nat.le_log2 hne).2 h))

/-- An integer of up to 53 binary places is not changed by rounding. -/
theorem exists_ofUnits_exact (negative : Bool) (hn : n < 2 ^ 53) : ∃ x : Finite,
    ofUnits negative (n * one) 1 = x ∧ x.negative = negative ∧ x.units = n * one := by
  obtain ⟨x, hx⟩ := exists_finite_ofUnits negative (by decide) hn
  obtain ⟨hsign, hrank⟩ := ofUnits_eq_finite hx
  refine ⟨x, hx, hsign, ?_⟩
  rw [Finite.units, hrank, one_eq, units_nearestRank hn]

/-- An integer with more places is not rounded to one with fewer. -/
theorem two_pow_le_units_of_ofUnits {negative : Bool} {x : Finite} (hn : 2 ^ 53 ≤ n)
    (hx : ofUnits negative (n * one) 1 = x) : 2 ^ 53 * one ≤ x.units := by
  obtain ⟨-, hrank⟩ := ofUnits_eq_finite hx
  rw [Finite.units, hrank, one_eq, ← Nat.pow_add]
  refine two_pow_le_units_nearestRank (by decide) ?_
  rw [Nat.div_one, Nat.pow_add]
  exact Nat.mul_le_mul_right _ hn

end Binary64

namespace Decimal

theorem ofDecimal_whole (negative : Bool) (n : Nat) :
    Binary64.ofDecimal ⟨negative, n, 0⟩ = Binary64.ofUnits negative (n * Binary64.one) 1 := by
  have hexponent : Decimal.exponent ⟨negative, n, 0⟩ = -((0 : Nat) : Int) := rfl
  rw [Binary64.ofDecimal_eq_ofUnits, numerator_of_places hexponent, denominator_of_places hexponent]
  rfl

/-- An integer is written with digits and an optional sign, which tell its value. -/
theorem int?_eq_some_iff {cs : List Char} {z : Int} : int? cs = some z ↔
    ∃ negative ds, splitSign cs = (negative, ds) ∧ ds ≠ [] ∧ (∀ c ∈ ds, c.isDigit) ∧
      z = if negative then -(natOfDigits ds : Int) else natOfDigits ds := by
  rcases hsign : splitSign cs with ⟨negative, ds⟩
  have hint : int? cs = if ds = [] ∨ ¬ ds.all Char.isDigit then none
      else some (if negative then -(natOfDigits ds : Int) else natOfDigits ds) := by
    rw [int?, hsign]
  rw [hint]
  constructor
  · intro h
    split at h
    · cases h
    · next hds =>
      rw [not_or, not_not, List.all_eq_true] at hds
      exact ⟨negative, ds, rfl, hds.1, hds.2, (Option.some.inj h).symm⟩
  · rintro ⟨_, _, he, hne, hds, rfl⟩
    obtain ⟨rfl, rfl⟩ := Prod.mk.inj he
    rw [if_neg (not_or.2 ⟨hne, not_not.2 (List.all_eq_true.2 hds)⟩)]

theorem exists_ofChars?_of_int? {cs : List Char} {z : Int} (h : int? cs = some z) :
    ∃ negative n, ofChars? cs = some ⟨negative, n, 0⟩ ∧ z = if negative then -(n : Int) else n := by
  obtain ⟨negative, ds, hsign, hne, hds, hz⟩ := int?_eq_some_iff.1 h
  exact ⟨negative, natOfDigits ds, ofChars?_of_splitSign negative hsign hds hne, hz⟩

end Decimal

end RuleFilter
