import SnippetRunner.Number.Double

/-
  Decimal text of doubles. The shortest digits that read back as the same double are found on
  the decimal grids of one, two, three and more digits, in exact arithmetic; a layout says how
  they are written.
-/
namespace SnippetRunner

/-- Which of two equally near decimals is taken. -/
inductive DecimalTie where
  | up
  | even
  deriving DecidableEq, Repr

/-- The digits of a positive number `digits · 10^exponent`. -/
structure Decimal where
  digits : Nat
  exponent : Int
  deriving DecidableEq, Repr

namespace Decimal

/-- The ends of the interval of numbers that round to `m · 2^q`, in units of `2^(q - 2)`. Below
a power of two doubles lie twice as close. -/
def roundingInterval (m : Nat) (q : Int) : Nat × Nat :=
  (if m = twoPow 52 && -1074 < q then 4 * m - 1 else 4 * m - 2, 4 * m + 2)

/-- `m · 2^(q - 2) / 10^e` as a fraction. -/
def scaled (m : Nat) (q e : Int) : Nat × Nat :=
  let (num, den) :=
    if 2 ≤ q then (m * twoPow (q - 2).toNat, 1) else (m, twoPow (2 - q).toNat)
  if 0 ≤ e then (num, den * tenPow e.toNat) else (num * tenPow (-e).toNat, den)

/-- Whether `digits · 10^e` rounds to `m · 2^q`. -/
def readsBack (m : Nat) (q e : Int) (digits : Nat) : Bool :=
  let (low, high) := roundingInterval m q
  let (lowNum, den) := scaled low q e
  let highNum := (scaled high q e).1
  let x := digits * den
  if m % 2 = 0 then lowNum ≤ x && x ≤ highNum else lowNum < x && x < highNum

/-- Whether the lower of two neighbours on a grid is taken, `twice` being twice the distance of
the number from it and `unit` the distance of the two. -/
def takesLower (tie : DecimalTie) (down twice unit : Nat) : Bool :=
  twice < unit || (twice = unit && tie = .even && down % 2 = 0)

/-- The multiple of `10^e` that rounds to `m · 2^q`, if there is one; of two the nearer. -/
def onGrid? (tie : DecimalTie) (m : Nat) (q e : Int) : Option Decimal :=
  let (num, den) := scaled (4 * m) q e
  let down := num / den
  match readsBack m q e down, readsBack m q e (down + 1) with
  | true, true =>
    some ⟨if takesLower tie down (2 * (num % den)) den then down else down + 1, e⟩
  | true, false => some ⟨down, e⟩
  | false, true => some ⟨down + 1, e⟩
  | false, false => none

/-- The number of digits of `n` before the decimal point, or less than one for a fraction: the
least `p` with `m · 2^q < 10^p`, found from below. -/
def integerDigits (m : Nat) (q : Int) : Int :=
  let guess := ((m.log2 : Int) + q) * 30103 / 100000 - 1
  let below (p : Int) : Bool := (scaled (4 * m) q p).1 < (scaled (4 * m) q p).2
  ((List.range 4).map fun (i : Nat) => guess + i).find? below |>.getD (guess + 4)

def stripZeros : Nat → Nat → Int → Decimal
  | 0, digits, e => ⟨digits, e⟩
  | fuel + 1, digits, e =>
    if digits % 10 = 0 && digits ≠ 0 then stripZeros fuel (digits / 10) (e + 1) else ⟨digits, e⟩

/-- The shortest decimal that rounds to `m · 2^q`; seventeen digits always do. -/
def shortest (tie : DecimalTie) (m : Nat) (q : Int) : Decimal :=
  let p := integerDigits m q
  let found := (List.range 17).findSome? fun n => onGrid? tie m q (p - (n + 1 : Nat))
  match found with
  | some d => stripZeros 18 d.digits d.exponent
  | none => ⟨m, q⟩

def digitText (d : Decimal) : List Char := (Nat.repr d.digits).toList

/-- The exponent of the number when one digit stands before its point. -/
def scientificExponent (d : Decimal) : Int := d.exponent + d.digitText.length - 1

/-- Every digit in its place, with zeros on either side as needed. -/
def positional (d : Decimal) : List Char :=
  let text := d.digitText
  if 0 ≤ d.exponent then text ++ List.replicate d.exponent.toNat '0'
  else
    let places := (-d.exponent).toNat
    if places < text.length then
      text.take (text.length - places) ++ '.' :: text.drop (text.length - places)
    else '0' :: '.' :: List.replicate (places - text.length) '0' ++ text

/-- One digit before the point, and the exponent. -/
def scientific (plus : Bool) (d : Decimal) : List Char :=
  let mantissa :=
    match d.digitText with
    | first :: second :: rest => first :: '.' :: second :: rest
    | text => text
  let e := d.scientificExponent
  let sign := if e < 0 then ['-'] else if plus then ['+'] else []
  mantissa ++ 'e' :: sign ++ (Nat.repr e.natAbs).toList

end Decimal

/-- A way to write a finite double. -/
structure DoubleLayout where
  tie : DecimalTie
  /-- Whether a number of this scientific exponent is written with every digit in its place. -/
  isPositional : Int → Bool
  /-- Whether whole numbers end in a point and a zero. -/
  pointZero : Bool
  /-- Whether the exponent has a sign when it is not negative. -/
  plus : Bool

namespace DoubleLayout

/-- Every digit in its place. -/
def plain : DoubleLayout := ⟨.up, fun _ => true, false, false⟩

/-- Always with an exponent. -/
def exponential : DoubleLayout := ⟨.up, fun _ => false, false, false⟩

/-- Numbers in JSON text: an exponent below `10^-5` and from `10^16` on. -/
def json : DoubleLayout := ⟨.even, fun e => -5 ≤ e && e ≤ 15, true, true⟩

def magnitude (layout : DoubleLayout) (m : Nat) (q : Int) : List Char :=
  let point := if layout.pointZero then ".0".toList else []
  if m = 0 then '0' :: point
  else
    let d := Decimal.shortest layout.tie m q
    if layout.isPositional d.scientificExponent then
      d.positional ++ if 0 ≤ d.exponent then point else []
    else d.scientific layout.plus

end DoubleLayout

/-- The text of a double; one that is not finite has the text of its name. -/
def Double.format (layout : DoubleLayout) : Double → String
  | nan => "NaN"
  | infinite negative => if negative then "-inf" else "inf"
  | finite negative m q _ =>
    String.ofList ((if negative then ['-'] else []) ++ layout.magnitude m q)

end SnippetRunner
