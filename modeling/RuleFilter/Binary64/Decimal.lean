import RuleFilter.Binary64.Basic

/-! Reading decimal numbers: the binary64 number nearest to a decimal text. -/

namespace RuleFilter

/-- The value `± digits * 10 ^ exponent`. -/
structure Decimal where
  negative : Bool
  digits : Nat
  exponent : Int
  deriving DecidableEq

namespace Decimal

def splitSign : List Char → Bool × List Char
  | '-' :: cs => (true, cs)
  | '+' :: cs => (false, cs)
  | cs => (false, cs)

theorem splitSign_length (cs : List Char) : (splitSign cs).2.length ≤ cs.length := by
  unfold splitSign
  split <;> simp

def natOfDigits (cs : List Char) : Nat := Nat.ofDigitChars 10 cs 0

def int? (cs : List Char) : Option Int :=
  let (negative, ds) := splitSign cs
  if ds = [] ∨ ¬ ds.all Char.isDigit then none
  else some (if negative then -natOfDigits ds else natOfDigits ds)

/-- The power of ten that ends a decimal text; none means zero. -/
def exponent? : List Char → Option Int
  | [] => some 0
  | c :: cs => if c = 'e' ∨ c = 'E' then int? cs else none

def splitFraction : List Char → List Char × List Char
  | '.' :: cs => (cs.takeWhile Char.isDigit, cs.dropWhile Char.isDigit)
  | cs => ([], cs)

/-- An optional sign, digits with at most one point among or around them, and an optional power of
ten. -/
def ofChars? (cs : List Char) : Option Decimal :=
  let (negative, cs) := splitSign cs
  let whole := cs.takeWhile Char.isDigit
  let (fraction, rest) := splitFraction (cs.dropWhile Char.isDigit)
  if whole ++ fraction = [] then none
  else
    (exponent? rest).map fun e =>
      ⟨negative, natOfDigits (whole ++ fraction), e - fraction.length⟩

end Decimal

namespace Binary64

/-- The number nearest to a decimal. A value that is certainly too large or certainly below half a
unit is settled by its size alone, since `8 ^ k ≤ 10 ^ k`, and its power of ten is never
computed. -/
def ofDecimal (x : Decimal) : Binary64 :=
  if x.digits = 0 then .finite (.zero x.negative)
  else
    match x.exponent with
    | .ofNat e =>
      if 1024 ≤ x.digits.log2 + 3 * e then .infinite x.negative
      else ofUnits x.negative (x.digits * Nat.pow 10 e * one) 1
    | .negSucc e =>
      if x.digits.log2 + 1077 ≤ 3 * (e + 1) then .finite (.zero x.negative)
      else ofUnits x.negative (x.digits * one) (Nat.pow 10 (e + 1))

/-- Reads a decimal, or the words for infinity and for no number in any case. -/
def ofText? (s : String) : Option Binary64 :=
  match Decimal.ofChars? s.toList with
  | some x => some (ofDecimal x)
  | none =>
    let (negative, cs) := Decimal.splitSign s.toList
    match String.ofList (cs.map Char.toLower) with
    | "inf" | "infinity" => some (.infinite negative)
    | "nan" => some .nan
    | _ => none

end Binary64

end RuleFilter
