import SnippetRunner.Number.Power

/-
  Double-precision numbers as exact values. A finite double is `± m · 2^q` in its one canonical
  form; rounding, reading of bits and comparison are exact arithmetic on natural numbers.
-/
namespace SnippetRunner

/-- The pairs that stand for `m · 2^q`: the leading bit is set unless the exponent is least. -/
def Canonical (m : Nat) (q : Int) : Prop :=
  m < twoPow 53 ∧ -1074 ≤ q ∧ q ≤ 971 ∧ (twoPow 52 ≤ m ∨ q = -1074)

instance (m : Nat) (q : Int) : Decidable (Canonical m q) :=
  inferInstanceAs (Decidable (_ ∧ _))

inductive Double where
  | nan
  | infinite (negative : Bool)
  | finite (negative : Bool) (m : Nat) (q : Int) (canonical : Canonical m q)
  deriving DecidableEq, Repr

namespace Double

/-- `± m · 2^q` for a pair in canonical form, and infinity beyond the greatest double. -/
def ofPair (negative : Bool) (m : Nat) (q : Int) : Double :=
  if canonical : Canonical m q then finite negative m q canonical else infinite negative

def zero (negative : Bool) : Double := ofPair negative 0 (-1074)

instance : Inhabited Double := ⟨zero false⟩

/-- `num / den` rounded to a whole number, a half to the even one. -/
def roundQuotient (num den : Nat) : Nat :=
  let down := num / den
  let rest := 2 * (num % den)
  if rest < den || (rest = den && down % 2 = 0) then down else down + 1

/-- `num / (den · 2^q)` rounded to a whole number. -/
def significandAt (num den : Nat) (q : Int) : Nat :=
  if 0 ≤ q then roundQuotient num (den * twoPow q.toNat)
  else roundQuotient (num * twoPow (-q).toNat) den

/-- Whether `2^e ≤ num / den`. -/
def powerLe (e : Int) (num den : Nat) : Bool :=
  if 0 ≤ e then den * twoPow e.toNat ≤ num else den ≤ num * twoPow (-e).toNat

/-- The exponent at which the significand of `num / den` has 53 bits, or the least one. -/
def exponentFor (num den : Nat) : Int :=
  let e := (num.log2 : Int) - den.log2
  max (-1074) ((if powerLe e num den then e else e - 1) - 52)

/-- `± num / den` rounded to the nearest double, a half to the even one. -/
def ofRatio (negative : Bool) (num den : Nat) : Double :=
  if num = 0 || den = 0 then zero negative
  else
    let q := exponentFor num den
    let m := significandAt num den q
    if m = twoPow 53 then ofPair negative (twoPow 52) (q + 1) else ofPair negative m q

def ofNat (n : Nat) : Double := ofRatio false n 1

def ofInt (n : Int) : Double := ofRatio (n < 0) n.natAbs 1

/-- `± digits · 10^e`, correctly rounded. Far outside the range of doubles the answer is given
without forming the power. -/
def ofDecimal (negative : Bool) (digits : Nat) (e : Int) : Double :=
  if digits = 0 then zero negative
  else if 310 < e then infinite negative
  else if (digits.log2 : Int) + 1 + e < -330 then zero negative
  else if 0 ≤ e then ofRatio negative (digits * tenPow e.toNat) 1
  else ofRatio negative digits (tenPow (-e).toNat)

/-- The double with the bits of `n` in its interchange format. -/
def ofBits (n : Nat) : Double :=
  let negative := decide (twoPow 63 ≤ n)
  let exponent : Nat := n / twoPow 52 % 2048
  let fraction : Nat := n % twoPow 52
  if exponent = 2047 then if fraction = 0 then infinite negative else nan
  else if exponent = 0 then ofPair negative fraction (-1074)
  else ofPair negative (twoPow 52 + fraction) ((exponent : Int) - 1075)

def isNaN : Double → Bool
  | nan => true
  | _ => false

def isFinite : Double → Bool
  | finite .. => true
  | _ => false

def isNegative : Double → Bool
  | nan => false
  | infinite negative => negative
  | finite negative .. => negative

def isZero : Double → Bool
  | finite _ m .. => m = 0
  | _ => false

def neg : Double → Double
  | nan => nan
  | infinite negative => infinite !negative
  | finite negative m q canonical => finite (!negative) m q canonical

/-- The magnitude of a finite double as a fraction; others have the magnitude of zero. -/
def ratio : Double → Nat × Nat
  | finite _ m q _ => if 0 ≤ q then (m * twoPow q.toNat, 1) else (m, twoPow (-q).toNat)
  | _ => (0, 1)

/-- The whole number that a double is, if it is one. -/
def toInt? : Double → Option Int
  | d@(finite negative ..) =>
    let (num, den) := d.ratio
    let whole : Nat := num / den
    if whole * den = num then some (if negative then -(whole : Int) else whole) else none
  | _ => none

/-- Whether a double is a whole number; neither infinity nor NaN is one. -/
def isIntegral (d : Double) : Bool := d.toInt?.isSome

/-- Whether the magnitude of the finite `a` is less than that of the finite `b`. -/
def magnitudeLt (a b : Double) : Bool := a.ratio.1 * b.ratio.2 < b.ratio.1 * a.ratio.2

/-- Equality of numbers: NaN differs from itself, and the two zeros are equal. -/
def numEq (a b : Double) : Bool := !a.isNaN && (a = b || (a.isZero && b.isZero))

/-- The product of two finite doubles, rounded. -/
def mulFinite (a b : Double) : Double :=
  ofRatio (a.isNegative != b.isNegative) (a.ratio.1 * b.ratio.1) (a.ratio.2 * b.ratio.2)

/-- The numerator of a finite double as a fraction, with its sign. -/
def numerator (d : Double) : Int := if d.isNegative then -(d.ratio.1 : Int) else d.ratio.1

/-- The difference of two doubles, rounded. -/
def sub : Double → Double → Double
  | nan, _ => nan
  | _, nan => nan
  | infinite x, infinite y => if x = y then nan else infinite x
  | infinite x, _ => infinite x
  | _, infinite y => infinite !y
  | a, b =>
    let num : Int := a.numerator * b.ratio.2 - b.numerator * a.ratio.2
    if num = 0 then zero (a.isZero && a.isNegative && !b.isNegative)
    else ofRatio (num < 0) num.natAbs (a.ratio.2 * b.ratio.2)

/-- The quotient of two finite doubles, rounded, for a divisor other than zero. -/
def divFinite (a b : Double) : Double :=
  ofRatio (a.isNegative != b.isNegative) (a.ratio.1 * b.ratio.2) (a.ratio.2 * b.ratio.1)

end Double

end SnippetRunner
