import Mathlib.Tactic.Ring
import Mathlib.Tactic.Linarith
import RuleFilter.Binary64.Shortest

/-!
Rounding depends on the value alone: a decimal is read as the number nearest to its value, however
its digits and its exponent are chosen, every number is what its own magnitude rounds to, and the
shortest digits of a number are read back as that number.
-/

namespace RuleFilter

namespace Binary64

/-- The binary places of a unit. -/
def unitPlaces : Nat := 1074

theorem one_eq : one = 2 ^ unitPlaces := by
  rw [← Nat.pow_eq]
  decide +kernel

theorem one_pos : 0 < one := one_eq ▸ Nat.two_pow_pos _

theorem roundDiv_mul_mul (n d : Nat) {k : Nat} (hk : 0 < k) :
    roundDiv (n * k) (d * k) = roundDiv n d := by
  have hq : n * k / (d * k) = n / d := Nat.mul_div_mul_right n d hk
  have hr : n * k % (d * k) = n % d * k := Nat.mul_mod_mul_right k n d
  have hl : 2 * (n % d * k) < d * k ↔ 2 * (n % d) < d := by
    rw [← Nat.mul_assoc]; exact Nat.mul_lt_mul_right hk
  have hg : d * k < 2 * (n % d * k) ↔ d < 2 * (n % d) := by
    rw [← Nat.mul_assoc]; exact Nat.mul_lt_mul_right hk
  simp only [roundDiv, hq, hr, hl, hg]

theorem roundDiv_mul_self (n : Nat) {d : Nat} (hd : 0 < d) : roundDiv (n * d) d = n := by
  simp [roundDiv, Nat.mul_mod_left, Nat.mul_div_cancel n hd, hd]

theorem div_le_roundDiv (n d : Nat) : n / d ≤ roundDiv n d := by
  unfold roundDiv
  split_ifs <;> omega

theorem roundDiv_le (n d : Nat) : roundDiv n d ≤ n / d + 1 := by
  unfold roundDiv
  split_ifs <;> omega

theorem nearestRank_mul_mul (n d : Nat) {k : Nat} (hk : 0 < k) :
    nearestRank (n * k) (d * k) = nearestRank n d := by
  have hq : n * k / (d * k) = n / d := Nat.mul_div_mul_right n d hk
  simp only [nearestRank, hq, Nat.mul_right_comm d k, roundDiv_mul_mul _ _ hk]

/-- Rounding depends on the value of a quotient only. -/
theorem nearestRank_congr {n d m e : Nat} (hd : 0 < d) (he : 0 < e) (h : n * e = m * d) :
    nearestRank n d = nearestRank m e := by
  rw [← nearestRank_mul_mul n d he, h, Nat.mul_comm d e, nearestRank_mul_mul m e hd]

theorem ofUnits_congr (negative : Bool) {n d m e : Nat} (hd : 0 < d) (he : 0 < e)
    (h : n * e = m * d) : ofUnits negative n d = ofUnits negative m e := by
  simp only [ofUnits, nearestRank_congr hd he h]

theorem nearestRank_units (rank : Nat) {d : Nat} (hd : 0 < d) :
    nearestRank (units rank * d) d = rank := by
  have hq : units rank * d / d = units rank := Nat.mul_div_cancel _ hd
  have hspan : span = 2 ^ 52 := rfl
  simp only [nearestRank, hq]
  by_cases h : rank < span
  · have hu : units rank = rank := by simp [units, h]
    have hl : rank.log2 - 52 = 0 := by
      by_cases h0 : rank = 0
      · simp [h0]
      · have : rank.log2 < 52 := (Nat.log2_lt h0).2 (hspan ▸ h)
        omega
    rw [hu, hl]
    simpa using roundDiv_mul_self rank hd
  · obtain ⟨e, he⟩ : ∃ e, rank / span = e + 1 :=
      ⟨rank / span - 1, by have := Nat.div_pos (not_lt.1 h) (by decide : 0 < span); omega⟩
    set m := span + rank % span with hm
    have hmod : rank % span < span := Nat.mod_lt _ (by decide)
    have hu : units rank = m * 2 ^ e := by simp [units, h, he, hm]
    have hlow : 2 ^ (e + 52) ≤ m * 2 ^ e := by
      rw [Nat.pow_add, Nat.mul_comm, ← hspan]
      exact Nat.mul_le_mul_right _ (Nat.le_add_right _ _)
    have hhigh : m * 2 ^ e < 2 ^ (e + 52 + 1) := by
      rw [Nat.pow_succ, Nat.pow_add, ← hspan, Nat.mul_assoc, Nat.mul_comm]
      exact Nat.mul_lt_mul_of_pos_left (by omega) (by positivity)
    have hl : (m * 2 ^ e).log2 - 52 = e := by
      have hne : m * 2 ^ e ≠ 0 := by
        have : 0 < 2 ^ (e + 52) := by positivity
        omega
      rw [(Nat.log2_eq_iff hne).2 ⟨hlow, hhigh⟩, Nat.add_sub_cancel]
    have hr : m * 2 ^ e * d = m * (d * 2 ^ e) := by ring
    rw [hu, hl, hr, Nat.pow_eq, roundDiv_mul_self m (by positivity), hm, ← Nat.add_assoc,
      ← Nat.succ_mul, Nat.succ_eq_add_one, ← he, Nat.mul_comm]
    exact Nat.div_add_mod rank span

/-- A finite number is what its magnitude rounds to. -/
theorem ofUnits_units (x : Finite) {d : Nat} (hd : 0 < d) :
    ofUnits x.negative (x.units * d) d = .finite x := by
  have h : nearestRank (x.units * d) d = x.rank := nearestRank_units x.rank hd
  simp [ofUnits, h, x.rank_lt]

/-- Values from `2 ^ (52 + e)` units on have the ranks of the span after the first `e + 1`, or
later ones. -/
theorem span_le_nearestRank {n d e : Nat} (h : 52 + e ≤ (n / d).log2) :
    (e + 1) * span ≤ nearestRank n d := by
  obtain ⟨scale, hs⟩ : ∃ scale, (n / d).log2 = scale + 52 := ⟨(n / d).log2 - 52, by omega⟩
  have hne : n / d ≠ 0 := by
    intro h0
    simp [h0] at h
  have hq : 2 ^ 52 ≤ n / d / 2 ^ scale := by
    rw [Nat.le_div_iff_mul_le (by positivity), ← Nat.pow_add, Nat.add_comm, ← hs]
    exact Nat.log2_self_le hne
  have hr := div_le_roundDiv n (d * 2 ^ scale)
  rw [← Nat.div_div_eq_div_mul] at hr
  simp only [nearestRank, hs, Nat.add_sub_cancel, Nat.pow_eq]
  have hspan : span = 2 ^ 52 := rfl
  calc (e + 1) * span = e * span + span := Nat.succ_mul e span
    _ ≤ scale * span + roundDiv n (d * 2 ^ scale) :=
      Nat.add_le_add (Nat.mul_le_mul_right _ (by omega)) (hspan ▸ hq.trans hr)

/-- Values from `2 ^ 1024` on are not finite. -/
theorem rankBound_le_nearestRank {n d : Nat} (h : 2098 ≤ (n / d).log2) :
    rankBound ≤ nearestRank n d := span_le_nearestRank (e := 2046) h

/-- Values below `2 ^ 1023` are finite. -/
theorem nearestRank_lt_rankBound {n d : Nat} (h : (n / d).log2 < 2097) :
    nearestRank n d < rankBound := by
  set scale := (n / d).log2 - 52 with hs
  have hq : n / d / 2 ^ scale < 2 ^ 53 := by
    rw [Nat.div_lt_iff_lt_mul (by positivity), ← Nat.pow_add]
    calc n / d < 2 ^ ((n / d).log2 + 1) := Nat.lt_log2_self
      _ ≤ 2 ^ (53 + scale) := Nat.pow_le_pow_right (by decide) (by omega)
  have hr := roundDiv_le n (d * 2 ^ scale)
  rw [← Nat.div_div_eq_div_mul] at hr
  have hspan : span = 2 ^ 52 := rfl
  calc nearestRank n d = scale * span + roundDiv n (d * 2 ^ scale) := rfl
    _ ≤ 2044 * span + 2 * span :=
      Nat.add_le_add (Nat.mul_le_mul_right _ (by omega)) (by omega)
    _ < rankBound := by decide

theorem nearestRank_eq_zero {n d : Nat} (h : 2 * n < d) : nearestRank n d = 0 := by
  have hq : n / d = 0 := Nat.div_eq_of_lt (by omega)
  have hr : n % d = n := Nat.mod_eq_of_lt (by omega)
  simp [nearestRank, hq, roundDiv, hr, h]

end Binary64

namespace Decimal

/-- The whole number over `denominator` that a decimal stands for, but for its sign. -/
def numerator (x : Decimal) : Nat :=
  match x.exponent with
  | .ofNat e => x.digits * 10 ^ e
  | .negSucc _ => x.digits

def denominator (x : Decimal) : Nat :=
  match x.exponent with
  | .ofNat _ => 1
  | .negSucc e => 10 ^ (e + 1)

theorem denominator_pos (x : Decimal) : 0 < x.denominator := by
  unfold denominator
  split <;> positivity

theorem numerator_of_places {x : Decimal} {n : Nat} (h : x.exponent = -n) :
    x.numerator = x.digits := by
  cases n with
  | zero => simp [numerator, show x.exponent = .ofNat 0 from h]
  | succ n => simp [numerator, show x.exponent = .negSucc n from h]

theorem denominator_of_places {x : Decimal} {n : Nat} (h : x.exponent = -n) :
    x.denominator = 10 ^ n := by
  cases n with
  | zero => simp [denominator, show x.exponent = .ofNat 0 from h]
  | succ n => simp [denominator, show x.exponent = .negSucc n from h]

end Decimal

namespace Binary64

theorem two_pow_three_mul_le (e : Nat) : 2 ^ (3 * e) ≤ 10 ^ e := by
  rw [Nat.pow_mul]
  exact Nat.pow_le_pow_left (by decide) e

theorem ofUnits_eq_infinite (negative : Bool) {n d : Nat} (h : rankBound ≤ nearestRank n d) :
    ofUnits negative n d = .infinite negative := by
  simp [ofUnits, Nat.not_lt.2 h]

theorem ofUnits_eq_zero (negative : Bool) {n d : Nat} (h : nearestRank n d = 0) :
    ofUnits negative n d = .finite (.zero negative) := by
  have : 0 < rankBound := by decide
  simp [ofUnits, h, this, Finite.zero]

/-- The shortcuts for very large and very small decimals round as well. -/
theorem ofDecimal_eq_ofUnits (x : Decimal) :
    ofDecimal x = ofUnits x.negative (x.numerator * one) x.denominator := by
  obtain ⟨negative, digits, exponent⟩ := x
  unfold ofDecimal
  by_cases h0 : digits = 0
  · have hz : nearestRank 0 (Decimal.denominator ⟨negative, 0, exponent⟩) = 0 :=
      nearestRank_eq_zero (Decimal.denominator_pos _)
    have hn : Decimal.numerator ⟨negative, 0, exponent⟩ = 0 := by
      cases exponent <;> simp [Decimal.numerator]
    simp [h0, hn, ofUnits_eq_zero negative hz]
  have hunits : unitPlaces = 1074 := rfl
  cases exponent with
  | ofNat e =>
    simp only [h0, if_false, Decimal.numerator, Decimal.denominator, Nat.pow_eq]
    split
    · next hlarge =>
      symm
      apply ofUnits_eq_infinite
      apply rankBound_le_nearestRank
      have hpos : digits * 10 ^ e * one ≠ 0 :=
        Nat.mul_ne_zero (Nat.mul_ne_zero h0 (by positivity)) one_pos.ne'
      rw [Nat.div_one, Nat.le_log2 hpos, one_eq]
      calc 2 ^ 2098 ≤ 2 ^ (digits.log2 + 3 * e + unitPlaces) :=
            Nat.pow_le_pow_right (by decide) (by omega)
        _ = 2 ^ digits.log2 * 2 ^ (3 * e) * 2 ^ unitPlaces := by rw [Nat.pow_add, Nat.pow_add]
        _ ≤ digits * 10 ^ e * 2 ^ unitPlaces := Nat.mul_le_mul_right _
            (Nat.mul_le_mul (Nat.log2_self_le h0) (two_pow_three_mul_le e))
    · rfl
  | negSucc e =>
    simp only [h0, if_false, Decimal.numerator, Decimal.denominator, Nat.pow_eq]
    split
    · next hsmall =>
      symm
      apply ofUnits_eq_zero
      apply nearestRank_eq_zero
      rw [one_eq]
      calc 2 * (digits * 2 ^ unitPlaces) < 2 * (2 ^ (digits.log2 + 1) * 2 ^ unitPlaces) := by
            gcongr
            exact Nat.lt_log2_self
        _ = 2 ^ (digits.log2 + 2 + unitPlaces) := by ring
        _ ≤ 2 ^ (3 * (e + 1)) := Nat.pow_le_pow_right (by decide) (by omega)
        _ ≤ 10 ^ (e + 1) := two_pow_three_mul_le (e + 1)
    · rfl

/-- Decimals of one value are read as one number. -/
theorem ofDecimal_congr {x y : Decimal} (hs : x.negative = y.negative)
    (hv : x.numerator * y.denominator = y.numerator * x.denominator) :
    ofDecimal x = ofDecimal y := by
  rw [ofDecimal_eq_ofUnits, ofDecimal_eq_ofUnits, hs]
  apply ofUnits_congr _ x.denominator_pos y.denominator_pos
  rw [Nat.mul_right_comm, hv, Nat.mul_right_comm]

namespace Finite

theorem five_pow_unitPlaces : Nat.pow 5 1074 = 5 ^ unitPlaces := by
  rw [← Nat.pow_eq]
  decide +kernel

theorem expansion_mul_one (x : Finite) : x.expansion * one = x.units * 10 ^ unitPlaces := by
  rw [expansion, five_pow_unitPlaces, one_eq, Nat.mul_assoc, ← Nat.mul_pow]

theorem ofDecimal_expansion (x : Finite) : ofDecimal (x.gridDecimal 0 x.expansion) = .finite x := by
  have he : (x.gridDecimal 0 x.expansion).exponent = -(unitPlaces : Int) := by
    simp [gridDecimal, unitPlaces]
  rw [ofDecimal_eq_ofUnits, Decimal.denominator_of_places he, Decimal.numerator_of_places he]
  rw [gridDecimal, expansion_mul_one]
  exact ofUnits_units x (by positivity)

theorem ofDecimal_onGrid? {tie : TieBreak} {x : Finite} {cut : Nat} {d : Decimal}
    (h : x.onGrid? tie cut = some d) : ofDecimal d = .finite x ∧ d.negative = x.negative := by
  have hm := List.mem_of_find?_eq_some h
  obtain ⟨n, -, rfl⟩ := List.mem_map.1 hm
  exact ⟨by simpa using List.find?_some h, rfl⟩

theorem ofDecimal_shortestFrom (tie : TieBreak) (x : Finite) (cut : Nat) :
    ofDecimal (shortestFrom tie x cut) = .finite x := by
  induction cut with
  | zero => exact ofDecimal_expansion x
  | succ cut ih =>
    rw [shortestFrom]
    cases h : x.onGrid? tie (cut + 1) with
    | none => simpa using ih
    | some d => simpa using (ofDecimal_onGrid? h).1

theorem ofDecimal_shortest (tie : TieBreak) (x : Finite) : ofDecimal (x.shortest tie) = .finite x :=
  ofDecimal_shortestFrom tie x x.coarsestCut

end Finite

end Binary64

end RuleFilter
