import RuleFilter.Binary64.Shortest

/-!
The written forms of a number. Filter text writes every finite number positionally; JSON text does
so for the middle exponents, always with a point, and writes the rest with a power of ten.
-/

namespace RuleFilter

namespace Decimal

/-- The significant digits, none for zero. -/
def significant (d : Decimal) : List Char :=
  if d.digits = 0 then []
  else ((Nat.toDigits 10 d.digits).reverse.dropWhile (· == '0')).reverse

/-- How many digits stand before the point; zeros after the point count negatively. -/
def pointPlace (d : Decimal) : Int := (Nat.toDigits 10 d.digits).length + d.exponent

/-- Digits with the point after the first `place` of them and zeros wherever digits are lacking. -/
def placePoint (ds : List Char) : Int → List Char
  | .negSucc n => '0' :: '.' :: List.replicate (n + 1) '0' ++ ds
  | .ofNat place =>
    if ds.length ≤ place then
      match ds ++ List.replicate (place - ds.length) '0' with
      | [] => ['0']
      | cs => cs
    else if place = 0 then '0' :: '.' :: ds
    else ds.take place ++ '.' :: ds.drop place

def signed (negative : Bool) (cs : List Char) : List Char := if negative then '-' :: cs else cs

def positional (d : Decimal) : List Char :=
  signed d.negative (placePoint d.significant (if d.digits = 0 then 0 else d.pointPlace))

def scientific (d : Decimal) : List Char :=
  let fraction := d.significant.drop 1
  let power := d.pointPlace - 1
  signed d.negative <| d.significant.take 1 ++ (if fraction = [] then [] else '.' :: fraction) ++
    'e' :: (if power < 0 then '-' else '+') :: Nat.toDigits 10 power.natAbs

end Decimal

namespace Binary64

namespace Finite

/-- The shortest digits that read back, written positionally. -/
def chars (x : Finite) : List Char := (x.shortest .up).positional

/-- The decimal exponents from `-5` to `15` are written positionally, a whole number with `.0`. -/
def jsonChars (x : Finite) : List Char :=
  let d := x.shortest .even
  if d.digits = 0 then d.positional ++ ['.', '0']
  else if d.pointPlace < -4 ∨ 16 < d.pointPlace then d.scientific
  else if d.significant.length ≤ d.pointPlace then d.positional ++ ['.', '0']
  else d.positional

end Finite

def text : Binary64 → String
  | .finite x => String.ofList x.chars
  | .infinite negative => if negative then "-inf" else "inf"
  | .nan => "NaN"

end Binary64

end RuleFilter
