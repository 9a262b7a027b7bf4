/-!
Binary64 numbers as exact values. The magnitudes are listed in increasing order, so that a finite
number is a sign and a rank; its value is a whole number of units of `2 ^ -1074`. Every result is
the exact one rounded to the nearest magnitude, a tie going to the even rank.
-/

namespace RuleFilter

/-- How many ranks follow one another at one spacing. -/
def Binary64.span : Nat := Nat.pow 2 52

def Binary64.rankBound : Nat := 2047 * span

def Binary64.one : Nat := Nat.pow 2 1074

@[ext] structure Binary64.Finite where
  negative : Bool
  rank : Nat
  rank_lt : rank < Binary64.rankBound := by decide
  deriving DecidableEq

inductive Binary64 where
  | finite (x : Binary64.Finite)
  | infinite (negative : Bool)
  | nan
  deriving DecidableEq

namespace Binary64

instance : Coe Finite Binary64 := ⟨.finite⟩

def finite? : Binary64 → Option Finite
  | .finite x => some x
  | _ => none

/-- The units of the magnitude of a rank. The ranks of the first span are spaced by one unit, as are
those of the second, and the spacing doubles with every span from there on. -/
def units (rank : Nat) : Nat :=
  if rank < span then rank else (span + rank % span) * Nat.pow 2 (rank / span - 1)

/-- A quotient rounded to the nearest whole number, a tie to the even one. -/
def roundDiv (n d : Nat) : Nat :=
  if 2 * (n % d) < d then n / d
  else if d < 2 * (n % d) then n / d + 1
  else n / d + n / d % 2

/-- The rank of the magnitude nearest to `n / d` units, as if ranks had no bound. Magnitudes of
that size are `2 ^ scale` units apart. -/
def nearestRank (n d : Nat) : Nat :=
  let scale := (n / d).log2 - 52
  scale * span + roundDiv n (d * Nat.pow 2 scale)

/-- The number nearest to `n / d` units. -/
def ofUnits (negative : Bool) (n d : Nat) : Binary64 :=
  if h : nearestRank n d < rankBound then .finite ⟨negative, nearestRank n d, h⟩
  else .infinite negative

theorem ofUnits_eq_finite {negative : Bool} {n d : Nat} {x : Finite}
    (h : ofUnits negative n d = .finite x) : x.negative = negative ∧ x.rank = nearestRank n d := by
  unfold ofUnits at h
  split at h <;> cases h
  exact ⟨rfl, rfl⟩

def ofInt (i : Int) : Binary64 := ofUnits (decide (i < 0)) (i.natAbs * one) 1

namespace Finite

def units (x : Finite) : Nat := Binary64.units x.rank

def zero (negative : Bool) : Finite := ⟨negative, 0, by decide⟩

def isZero (x : Finite) : Bool := x.rank == 0

def isWhole (x : Finite) : Bool := x.units % one == 0

/-- The whole part, cut toward zero. -/
def toInt (x : Finite) : Int :=
  if x.negative then -(x.units / one : Nat) else (x.units / one : Nat)

def mul (x y : Finite) : Binary64 :=
  ofUnits (x.negative != y.negative) (x.units * y.units) one

def div (x y : Finite) : Binary64 :=
  ofUnits (x.negative != y.negative) (x.units * one) y.units

end Finite

end Binary64

end RuleFilter
