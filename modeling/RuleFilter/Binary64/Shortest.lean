import RuleFilter.Binary64.Decimal

/-!
The fewest decimal digits that read back. The exact decimal expansion of a finite number is cut
after one digit, two digits and so on; the first cut of which a neighbour on the grid of that many
digits reads back as the number is the result. The last cut drops nothing, so there is one.
-/

namespace RuleFilter.Binary64

inductive TieBreak where
  | up | even
  deriving DecidableEq

namespace Finite

/-- The magnitude in units of `10 ^ -1074`, which is exact. -/
def expansion (x : Finite) : Nat := x.units * Nat.pow 5 1074

/-- The neighbours of the magnitude on the grid spaced by `10 ^ cut` units of the expansion, the
nearer one first. -/
def neighbours (tie : TieBreak) (x : Finite) (cut : Nat) : List Nat :=
  let spacing := Nat.pow 10 cut
  let below := x.expansion / spacing
  let rest := x.expansion % spacing
  let belowFirst := 2 * rest < spacing || 2 * rest = spacing && tie = .even && below % 2 = 0
  if rest = 0 then [below] else if belowFirst then [below, below + 1] else [below + 1, below]

def gridDecimal (x : Finite) (cut digits : Nat) : Decimal := ⟨x.negative, digits, cut - 1074⟩

def onGrid? (tie : TieBreak) (x : Finite) (cut : Nat) : Option Decimal :=
  ((x.neighbours tie cut).map (x.gridDecimal cut)).find? fun d => ofDecimal d = .finite x

/-- Looks for the coarsest grid with a decimal that reads back, from a spacing of `10 ^ cut` down to
the expansion itself. -/
def shortestFrom (tie : TieBreak) (x : Finite) : Nat → Decimal
  | 0 => x.gridDecimal 0 x.expansion
  | cut + 1 => (x.onGrid? tie (cut + 1)).getD (shortestFrom tie x cut)

/-- A cut that leaves at most one digit of the expansion, since `2 ^ 93 < 10 ^ 28`. -/
def coarsestCut (x : Finite) : Nat := (x.expansion.log2 + 1) * 28 / 93

def shortest (tie : TieBreak) (x : Finite) : Decimal := shortestFrom tie x x.coarsestCut

end Finite

end RuleFilter.Binary64
