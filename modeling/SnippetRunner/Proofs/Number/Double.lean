import Mathlib.Algebra.Group.Nat.Defs
import SnippetRunner.Number.Decimal

/-
  Doubles that are whole, and the characters of the text of a double. A double that is the whole
  number `n` is what `n` is rounded to (`ofInt_of_toInt?`): its significand has no more bits than
  there is room for, so nothing is rounded away.
-/
namespace SnippetRunner

namespace Double

/-! ## Whole doubles -/

/-- The double without the sign of a negative zero. -/
def unsignedZero (d : Double) : Double := if d.isZero then zero false else d

theorem roundQuotient_mul (n : Nat) {den : Nat} (h : 0 < den) :
    roundQuotient (n * den) den = n := by
  unfold roundQuotient
  rw [Nat.mul_div_cancel n h, Nat.mul_mod_left]
  simp [h]

theorem powerLe_log2 {n : Nat} (h : n ≠ 0) : powerLe n.log2 n 1 = true := by
  have hle : 2 ^ n.log2 ≤ n := (Nat.log2_eq_iff h).mp rfl |>.1
  unfold powerLe
  rw [if_pos (Int.natCast_nonneg _), Int.toNat_natCast, Nat.one_mul]
  exact decide_eq_true hle

theorem exponentFor_one {n : Nat} (h : n ≠ 0) : exponentFor n 1 = (n.log2 : Int) - 52 := by
  have hlog : (n.log2 : Int) - (Nat.log2 1 : Nat) = n.log2 := by
    rw [show Nat.log2 1 = 0 by decide]
    omega
  unfold exponentFor
  dsimp only
  rw [hlog, if_pos (powerLe_log2 h)]
  omega

/-- The significand and the exponent of a canonical pair, where it is the whole number `n`. -/
structure Whole (n m : Nat) (q : Int) : Prop where
  canonical : Canonical m q
  ne_zero : n ≠ 0
  /-- `n = m · 2^q`, multiplied out. -/
  eq : if 0 ≤ q then n = m * 2 ^ q.toNat else n * 2 ^ (-q).toNat = m

/-- A whole number is no subnormal, so its exponent follows from its size. -/
theorem Whole.log2_eq {n m : Nat} {q : Int} (h : Whole n m q) : (n.log2 : Int) = 52 + q := by
  obtain ⟨⟨hm, -, -, hnormal⟩, hn, heq⟩ := h
  have hm : m < 2 ^ 53 := hm
  split at heq
  · next hq =>
    obtain ⟨e, rfl⟩ := Int.eq_ofNat_of_zero_le hq
    rw [Int.toNat_natCast] at heq
    have hnormal : 2 ^ 52 ≤ m := hnormal.resolve_right (by omega)
    have hlog : n.log2 = 52 + e := by
      refine (Nat.log2_eq_iff hn).mpr ⟨?_, ?_⟩
      · rw [Nat.pow_add, heq]
        exact Nat.mul_le_mul_right _ hnormal
      · rw [show 52 + e + 1 = 53 + e by omega, Nat.pow_add, heq]
        exact Nat.mul_lt_mul_of_pos_right hm (Nat.two_pow_pos _)
    omega
  · next hq =>
    obtain ⟨e, rfl⟩ : ∃ e : Nat, q = -(e : Int) := ⟨(-q).toNat, by omega⟩
    rw [Int.neg_neg, Int.toNat_natCast] at heq
    have he : e ≤ 52 := by
      refine Nat.le_of_not_lt fun hlarge => ?_
      have hpow : 2 ^ 53 ≤ 2 ^ e := Nat.pow_le_pow_right (by decide) (by omega)
      have hge : 2 ^ e ≤ n * 2 ^ e := Nat.le_mul_of_pos_left _ (Nat.pos_of_ne_zero hn)
      omega
    have hnormal : 2 ^ 52 ≤ m := hnormal.resolve_right (by omega)
    have hlog : n.log2 = 52 - e := by
      refine (Nat.log2_eq_iff hn).mpr ⟨?_, ?_⟩
      · refine Nat.le_of_mul_le_mul_right ?_ (Nat.two_pow_pos e)
        rw [← Nat.pow_add, heq, show 52 - e + e = 52 by omega]
        exact hnormal
      · refine Nat.lt_of_mul_lt_mul_right (a := 2 ^ e) ?_
        rw [← Nat.pow_add, heq, show 52 - e + 1 + e = 53 by omega]
        exact hm
    omega

theorem Whole.significandAt_eq {n m : Nat} {q : Int} (h : Whole n m q) :
    significandAt n 1 q = m := by
  have heq := h.eq
  unfold significandAt twoPow
  split at heq
  · next hq =>
    rw [if_pos hq, Nat.one_mul, heq]
    exact roundQuotient_mul m (Nat.two_pow_pos _)
  · next hq =>
    rw [if_neg hq]
    show roundQuotient (n * 2 ^ (-q).toNat) 1 = m
    rw [heq]
    simpa using roundQuotient_mul m Nat.one_pos

theorem Whole.ofRatio_eq {n m : Nat} {q : Int} (h : Whole n m q) (negative : Bool) :
    ofRatio negative n 1 = finite negative m q h.canonical := by
  have hq : exponentFor n 1 = q := by
    rw [exponentFor_one h.ne_zero, h.log2_eq]
    omega
  have hm : m ≠ twoPow 53 := Nat.ne_of_lt h.canonical.1
  unfold ofRatio
  rw [if_neg (by simp [h.ne_zero]), hq]
  dsimp only
  rw [h.significandAt_eq, if_neg hm]
  exact dif_pos h.canonical

/-- A finite double that is the whole number `n` is `n` as a fraction, with its sign. -/
theorem toInt?_finite {negative : Bool} {m : Nat} {q : Int} {canonical : Canonical m q} {n : Int}
    (h : (finite negative m q canonical).toInt? = some n) :
    (if 0 ≤ q then n.natAbs = m * 2 ^ q.toNat else n.natAbs * 2 ^ (-q).toNat = m) ∧
      n = if negative then -(n.natAbs : Int) else n.natAbs := by
  have hratio : (finite negative m q canonical).ratio =
    if 0 ≤ q then (m * 2 ^ q.toNat, 1) else (m, 2 ^ (-q).toNat) := rfl
  unfold toInt? at h
  dsimp only at h
  rw [hratio] at h
  generalize hr : (if 0 ≤ q then (m * 2 ^ q.toNat, 1) else (m, 2 ^ (-q).toNat)) = r at h
  obtain ⟨num, den⟩ := r
  dsimp only at h
  split at h
  · next hwhole =>
    have hn := Option.some.inj h
    have habs : n.natAbs = num / den := by
      rw [← hn]
      split
      · rw [Int.natAbs_neg, Int.natAbs_natCast]
      · exact Int.natAbs_natCast _
    refine ⟨?_, by rw [habs]; exact hn.symm⟩
    rw [← habs] at hwhole
    split at hr
    · cases hr
      rw [if_pos ‹_›]
      omega
    · cases hr
      rw [if_neg ‹_›]
      exact hwhole
  · cases h

theorem eq_zero_of_isZero {d : Double} {n : Int} (h : d.toInt? = some n)
    (hzero : d.isZero = true) : n = 0 := by
  cases d with
  | nan => cases h
  | infinite negative => cases h
  | finite negative m q canonical =>
    obtain ⟨hwhole, -⟩ := toInt?_finite h
    obtain rfl : m = 0 := of_decide_eq_true hzero
    split at hwhole
    · omega
    · have := Nat.mul_eq_zero.mp hwhole
      have := Nat.two_pow_pos (-q).toNat
      omega

/-- Reading back the whole number that a double is gives the double, but for the sign of zero. -/
theorem ofInt_of_toInt? {d : Double} {n : Int} (h : d.toInt? = some n) :
    ofInt n = d.unsignedZero := by
  cases d with
  | nan => cases h
  | infinite negative => cases h
  | finite negative m q canonical =>
    obtain ⟨hwhole, hsign⟩ := toInt?_finite h
    by_cases hm : m = 0
    · have hzero : (finite negative m q canonical).isZero = true := decide_eq_true hm
      rw [eq_zero_of_isZero h hzero, unsignedZero, if_pos hzero]
      rfl
    · have hn : n.natAbs ≠ 0 := by
        intro hn
        rw [hn] at hwhole
        split at hwhole
        · have := Nat.mul_eq_zero.mp hwhole.symm
          have := Nat.two_pow_pos q.toNat
          omega
        · omega
      have hnegative : decide (n < 0) = negative := by
        cases negative with
        | false =>
          rw [if_neg Bool.false_ne_true] at hsign
          exact decide_eq_false (by omega)
        | true =>
          rw [if_pos rfl] at hsign
          exact decide_eq_true (by omega)
      rw [ofInt, hnegative, (Whole.mk canonical hn hwhole).ofRatio_eq, unsignedZero, isZero,
        if_neg (by simpa using hm)]

theorem isIntegral_zero (negative : Bool) : (zero negative).isIntegral = true := by
  have hcanonical : Canonical 0 (-1074) := by decide
  rw [zero, ofPair, dif_pos hcanonical]
  simp [isIntegral, toInt?, ratio]

theorem isIntegral_unsignedZero {d : Double} (h : d.isIntegral = true) :
    d.unsignedZero.isIntegral = true := by
  unfold unsignedZero
  split
  · exact isIntegral_zero false
  · exact h

end Double

/-! ## The characters of numerals -/

namespace Text

/-- The characters that numbers are written with. -/
def isNumeralChar (c : Char) : Bool := c.isDigit || ['.', 'e', '+', '-'].contains c

/-- All characters are those of numbers. -/
def Numeral (s : List Char) : Prop := ∀ c ∈ s, isNumeralChar c = true

instance : DecidablePred Numeral :=
  fun _ => decidable_of_iff _ List.all_eq_true

theorem numeral_append {s t : List Char} : Numeral (s ++ t) ↔ Numeral s ∧ Numeral t :=
  List.forall_mem_append

theorem numeral_cons {c : Char} {s : List Char} :
    Numeral (c :: s) ↔ isNumeralChar c = true ∧ Numeral s :=
  List.forall_mem_cons

theorem numeral_replicate {c : Char} (n : Nat) (h : isNumeralChar c = true) :
    Numeral (List.replicate n c) := by
  intro d hd
  rw [List.eq_of_mem_replicate hd]
  exact h

theorem isDigit_of_mem_repr {n : Nat} {c : Char} (h : c ∈ (Nat.repr n).toList) :
    c.isDigit = true := by
  rw [Nat.repr_eq_ofList_toDigits, String.toList_ofList] at h
  exact Nat.isDigit_of_mem_toDigits (b := 10) (by decide) (by decide) h

theorem numeral_digits {s : List Char} (h : ∀ c ∈ s, c.isDigit = true) : Numeral s := by
  intro c hc
  rw [isNumeralChar, h c hc, Bool.true_or]

theorem numeral_repr (n : Nat) : Numeral (Nat.repr n).toList :=
  numeral_digits fun _ => isDigit_of_mem_repr

theorem numeral_toString (n : Int) : Numeral (toString n).toList := by
  rw [Int.toString_eq_repr, Int.repr_eq_if]
  split
  · exact numeral_repr _
  · rw [String.toList_append]
    exact numeral_cons.mpr ⟨by decide, numeral_repr _⟩

end Text

open Text

theorem Decimal.numeral_positional (d : Decimal) : Numeral d.positional := by
  have hdigits : Numeral d.digitText := numeral_repr d.digits
  unfold positional
  dsimp only
  split
  · exact numeral_append.mpr ⟨hdigits, numeral_replicate _ (by decide)⟩
  · split
    · refine numeral_append.mpr ⟨fun c hc => hdigits c (List.mem_of_mem_take hc), ?_⟩
      exact numeral_cons.mpr ⟨by decide, fun c hc => hdigits c (List.mem_of_mem_drop hc)⟩
    · refine numeral_cons.mpr ⟨by decide, numeral_cons.mpr ⟨by decide, ?_⟩⟩
      exact numeral_append.mpr ⟨numeral_replicate _ (by decide), hdigits⟩

theorem Decimal.numeral_scientific (plus : Bool) (d : Decimal) : Numeral (d.scientific plus) := by
  have hdigits : Numeral d.digitText := numeral_repr d.digits
  unfold scientific
  dsimp only
  refine numeral_append.mpr
    ⟨numeral_append.mpr ⟨?_, numeral_cons.mpr ⟨by decide, ?_⟩⟩, numeral_repr _⟩
  · split
    · next heq =>
      rw [heq, numeral_cons, numeral_cons] at hdigits
      obtain ⟨hfirst, hsecond, hrest⟩ := hdigits
      exact numeral_cons.mpr ⟨hfirst, numeral_cons.mpr
        ⟨by decide, numeral_cons.mpr ⟨hsecond, hrest⟩⟩⟩
    · exact hdigits
  · split
    · decide
    · cases plus <;> decide

theorem DoubleLayout.numeral_magnitude (layout : DoubleLayout) (m : Nat) (q : Int) :
    Numeral (layout.magnitude m q) := by
  have hpoint : Numeral (if layout.pointZero then ".0".toList else []) := by
    cases layout.pointZero <;> decide
  unfold magnitude
  dsimp only
  split
  · exact numeral_cons.mpr ⟨by decide, hpoint⟩
  · split
    · refine numeral_append.mpr ⟨Decimal.numeral_positional _, ?_⟩
      split
      · exact hpoint
      · decide
    · exact Decimal.numeral_scientific _ _

/-- A finite double is written with the characters of numbers alone. -/
theorem Double.numeral_format {d : Double} (h : d.isFinite = true) (layout : DoubleLayout) :
    Numeral (d.format layout).toList := by
  cases d with
  | nan => cases h
  | infinite negative => cases h
  | finite negative m q canonical =>
    rw [format, String.toList_ofList]
    refine numeral_append.mpr ⟨?_, layout.numeral_magnitude m q⟩
    cases negative <;> decide

end SnippetRunner
