import RuleFilter.Predicate.Compile
import RuleFilter.Proofs.Binary64.Rounding

/-! Numbers that are integers: their units are so many times those of one. -/

namespace RuleFilter

namespace Binary64

namespace Finite

def signedUnits (x : Finite) : Int := if x.negative then -(x.units : Int) else x.units

theorem natAbs_signedUnits (x : Finite) : x.signedUnits.natAbs = x.units := by
  unfold signedUnits
  split <;> simp

theorem isWhole_iff {x : Finite} : x.isWhole ↔ ∃ n : Int, x.signedUnits = n * one := by
  rw [← dvd_iff_exists_eq_mul_left, ← Int.natAbs_dvd_natAbs, natAbs_signedUnits,
    Int.natAbs_natCast, Nat.dvd_iff_mod_eq_zero]
  simp [isWhole]

theorem isExact_iff {x : Finite} {n : Int} (h : x.signedUnits = n * one) :
    x.isExact ↔ n.natAbs ≤ maxExact := by
  have hunits : x.units = n.natAbs * one := by
    rw [← natAbs_signedUnits, h, Int.natAbs_mul, Int.natAbs_natCast]
  simp [isExact, hunits, Nat.mul_le_mul_right_iff one_pos]

end Finite

/-- Whether a number is the integer `n`, with nothing rounded. -/
def IsInteger (x : Binary64) (n : Int) : Prop := ∃ y : Finite, x = y ∧ y.signedUnits = n * one

theorem isInteger_finite {x : Finite} {n : Int} :
    (finite x).IsInteger n ↔ x.signedUnits = n * one := by
  constructor
  · rintro ⟨y, hy, hn⟩
    cases hy
    exact hn
  · intro h
    exact ⟨x, rfl, h⟩

theorem IsInteger.unique {x : Binary64} {n n' : Int} (h : x.IsInteger n) (h' : x.IsInteger n') :
    n = n' := by
  obtain ⟨y, rfl, hn⟩ := h
  have hunits : n * one = n' * one := hn.symm.trans (isInteger_finite.1 h')
  exact Int.eq_of_mul_eq_mul_right (Int.natCast_ne_zero.2 one_pos.ne') hunits

/-- Integers of 1023 bits or fewer have a finite number nearest to them, whatever their sign. -/
theorem exists_finite_ofUnits (negative : Bool) {n bits : Nat} (hbits : bits ≤ 1023)
    (h : n < 2 ^ bits) : ∃ x : Finite, ofUnits negative (n * one) 1 = x := by
  have hunits : unitPlaces = 1074 := rfl
  have hlog : (n * one / 1).log2 < bits + unitPlaces := by
    rw [Nat.div_one, one_eq]
    by_cases hzero : n = 0
    · rw [hzero, Nat.zero_mul, Nat.log2_zero]
      omega
    · rw [Nat.log2_lt (Nat.mul_ne_zero hzero (by positivity)), Nat.pow_add]
      exact Nat.mul_lt_mul_of_pos_right h (by positivity)
  exact ⟨_, dif_pos (nearestRank_lt_rankBound (by omega))⟩

theorem exists_finite_ofInt {i : Int} {bits : Nat} (hbits : bits ≤ 1023) (h : i.natAbs < 2 ^ bits) :
    ∃ x : Finite, ofInt i = x := exists_finite_ofUnits (decide (i < 0)) hbits h

end Binary64

end RuleFilter
