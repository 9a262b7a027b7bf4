import RuleFilter.Binary64.Decimal
import RuleFilter.Json.Basic

/-!
Numbers of JSON text. An integer that fits 64 bits is kept exactly. Any other number is computed in
binary64 from the leading digits that fit 64 bits and a power of ten, with a rounding at each step,
so that a long number may differ from the nearest one in its last bit.
-/

namespace RuleFilter.Json

/-- A number as written. The digits are in reading order. -/
structure Numeral where
  negative : Bool
  whole : List Char
  fraction : List Char
  exponent : Option (Bool × List Char)

namespace Numeral

def maxSignificand : Nat := UInt64.size - 1
def maxExponent : Nat := UInt32.size / 2 - 1

def digitValue (c : Char) : Nat := c.toNat - '0'.toNat

/-- Appends digits to a number as long as the result stays within a bound; the second result holds
the digits from the first one that does not fit. -/
def accumulate (bound : Nat) : Nat → List Char → Nat × List Char
  | n, [] => (n, [])
  | n, c :: cs =>
    if 10 * n + digitValue c ≤ bound then accumulate bound (10 * n + digitValue c) cs
    else (n, c :: cs)

/-- The largest power of ten that one step multiplies or divides by. -/
def maxPower : Nat := 308

def powerOfTen? (e : Nat) : Option Binary64.Finite := (Binary64.ofDecimal ⟨false, 1, e⟩).finite?

/-- Divides by the largest power again and again; zero stays as it is. -/
def divSteps : Nat → Binary64.Finite → Option Binary64.Finite
  | 0, x => some x
  | n + 1, x =>
    if x.isZero then some x
    else (powerOfTen? maxPower).bind fun p => (x.div p).finite?.bind (divSteps n)

/-- Divides by `10 ^ e`, in steps where that is too large for one. -/
def divPower (x : Binary64.Finite) (e : Nat) : Option Binary64.Finite := do
  let steps := (e - 1) / maxPower
  let x ← divSteps steps x
  (x.div (← powerOfTen? (e - steps * maxPower))).finite?

/-- `significand * 10 ^ exponent`, or nothing when it is too large. -/
def ofParts (significand : Nat) (exponent : Int) : Option Binary64.Finite := do
  let x ← (Binary64.ofInt significand).finite?
  match exponent with
  | .negSucc e => divPower x (e + 1)
  | .ofNat e =>
    if e ≤ maxPower then (powerOfTen? e).bind fun p => (x.mul p).finite?
    else if x.isZero then some x
    else none

def withSign (negative : Bool) (x : Binary64.Finite) : Json :=
  .real { x with negative := negative }

/-- The integer, if it fits 64 bits; minus zero does not. -/
def integer? (negative : Bool) (significand : Nat) : Option Json :=
  if ¬ negative then some (.integer significand)
  else if 0 < significand ∧ significand ≤ UInt64.size / 2 then some (.integer (-significand))
  else none

/-- Too large a written exponent makes every number but zero overflow or vanish. -/
def scaled (negative : Bool) (significand : Nat) (shift : Int) :
    Option (Bool × List Char) → Option Json
  | none => (ofParts significand shift).map (withSign negative)
  | some (down, digits) =>
    match accumulate maxExponent 0 digits with
    | (e, []) =>
      (ofParts significand (if down then shift - e else shift + e)).map (withSign negative)
    | (_, _ :: _) =>
      if significand ≠ 0 ∧ ¬ down then none else some (withSign negative (.zero false))

def toJson? (n : Numeral) : Option Json :=
  match accumulate maxSignificand 0 n.whole with
  | (significand, []) =>
    match n.fraction, n.exponent with
    | [], none =>
      (integer? n.negative significand).orElse fun _ => scaled n.negative significand 0 none
    | fraction, exponent =>
      let (significand, dropped) := accumulate maxSignificand significand fraction
      scaled n.negative significand (dropped.length - fraction.length) exponent
  | (significand, dropped@(_ :: _)) =>
    let (significand, droppedFraction) := accumulate maxSignificand significand n.fraction
    scaled n.negative significand
      (dropped.length + droppedFraction.length - n.fraction.length) n.exponent

end Numeral

end RuleFilter.Json
