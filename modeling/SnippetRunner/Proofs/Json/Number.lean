import SnippetRunner.Json.Printer
import SnippetRunner.Json.Reader
import SnippetRunner.Proofs.Number.Double

/-
  Numbers in JSON text. A whole number of 64 bits is read back from its digits (`readsBack_int`).
  What is read does not depend on what follows, if that cannot continue a number
  (`readNumber_append`).
-/
namespace SnippetRunner

/-- The number is read back from its text. -/
def JsonNumber.ReadsBack (n : JsonNumber) : Prop :=
  Json.readNumber n.text.toList = some (some n, [])

namespace Json

open SnippetRunner.Text

/-- Whether a number may go on with `c`. -/
def continuesNumber (c : Char) : Bool := c.isDigit || c = '.' || c = 'e' || c = 'E'

/-- No number goes on into `s`. -/
def EndsNumber (s : List Char) : Prop := ∀ c ∈ s.head?, continuesNumber c = false

theorem endsNumber_cons {c : Char} (h : continuesNumber c = false) (s : List Char) :
    EndsNumber (c :: s) := by
  rintro _ ⟨⟩
  exact h

/-! ## What follows a number -/

theorem splitSign_append (c : Char) (s rest : List Char) :
    splitSign (c :: s ++ rest) = ((splitSign (c :: s)).1, (splitSign (c :: s)).2 ++ rest) := by
  unfold splitSign
  split
  · next heq =>
    obtain ⟨rfl, rfl⟩ := List.cons.inj heq
    rfl
  · next heq =>
    obtain ⟨rfl, rfl⟩ := List.cons.inj heq
    rfl
  · next hminus hplus =>
    split
    · next heq => exact absurd (congrArg (· ++ rest) heq) (hminus _)
    · next heq => exact absurd (congrArg (· ++ rest) heq) (hplus _)
    · rfl

section Follow

variable {rest : List Char} (hrest : EndsNumber rest)

include hrest

theorem spanDigits_append (s : List Char) :
    spanDigits (s ++ rest) = ((spanDigits s).1, (spanDigits s).2 ++ rest) := by
  induction s with
  | nil =>
    cases rest with
    | nil => rfl
    | cons c rest =>
      have hc : c.isDigit = false := by
        have := hrest c rfl
        simp only [continuesNumber, Bool.or_eq_false_iff] at this
        exact this.1.1.1
      simp [spanDigits, hc]
  | cons c s ih =>
    simp only [spanDigits, Prod.mk.injEq] at ih
    by_cases hc : c.isDigit = true
    · simp [spanDigits, hc, ih]
    · simp [spanDigits, hc]

theorem readFraction_of_endsNumber : readFraction rest = some ([], rest) := by
  unfold readFraction
  split
  · exact absurd (hrest '.' rfl) (by decide)
  · rfl

theorem readFraction_append {s fraction after : List Char}
    (h : readFraction s = some (fraction, after)) :
    readFraction (s ++ rest) = some (fraction, after ++ rest) := by
  cases s with
  | nil =>
    cases h
    exact readFraction_of_endsNumber hrest
  | cons c s =>
    by_cases hc : c = '.'
    · subst hc
      simp only [readFraction, List.cons_append, spanDigits_append hrest] at h ⊢
      split at h
      · cases h
      · cases h
        rw [if_neg ‹_›]
    · have hnone (t : List Char) : readFraction (c :: t) = some ([], c :: t) := by
        unfold readFraction
        split
        · next heq => exact absurd (List.cons.inj heq).1 hc
        · rfl
      rw [hnone] at h
      cases h
      exact hnone _

theorem readExponent_of_endsNumber : readExponent rest = some (0, rest) := by
  cases rest with
  | nil => rfl
  | cons c rest =>
    have hc := hrest c rfl
    simp only [continuesNumber, Bool.or_eq_false_iff, decide_eq_false_iff_not] at hc
    simp [readExponent, hc.1.2, hc.2]

theorem readExponent_append {s after : List Char} {e : Int}
    (h : readExponent s = some (e, after)) :
    readExponent (s ++ rest) = some (e, after ++ rest) := by
  cases s with
  | nil =>
    cases h
    exact readExponent_of_endsNumber hrest
  | cons c s =>
    by_cases hc : (c = 'e' || c = 'E') = true
    · cases s with
      | nil => simp [readExponent, hc, splitSign, spanDigits] at h
      | cons sign s =>
        have hsign : splitSign (sign :: (s ++ rest)) = _ := splitSign_append sign s rest
        simp only [readExponent, List.cons_append, hc, if_true, hsign,
          spanDigits_append hrest] at h ⊢
        split at h
        · cases h
        · cases h
          rw [if_neg ‹_›]
    · simp only [readExponent, List.cons_append, hc] at h ⊢
      cases h
      rfl

theorem readMagnitude_append {negative : Bool} {s after : List Char} {n : Option JsonNumber}
    (h : readMagnitude negative s = some (n, after)) :
    readMagnitude negative (s ++ rest) = some (n, after ++ rest) := by
  unfold readMagnitude at h ⊢
  simp only [Option.bind_eq_bind, Option.pure_def, spanDigits_append hrest] at h ⊢
  split at h
  · cases h
  · next hdigits =>
    obtain ⟨⟨fraction, afterFraction⟩, hfraction, h⟩ := Option.bind_eq_some_iff.mp h
    obtain ⟨⟨e, afterExponent⟩, hexponent, h⟩ := Option.bind_eq_some_iff.mp h
    rw [if_neg hdigits, readFraction_append hrest hfraction, Option.bind_some,
      readExponent_append hrest hexponent, Option.bind_some]
    simp only [List.length_append, Nat.add_right_cancel_iff]
    split at h
    · next hwhole =>
      rw [if_pos hwhole]
      cases h
      rfl
    · next hwhole =>
      rw [if_neg hwhole]
      cases h
      rfl

/-- What is read of a number does not depend on what follows it. -/
theorem readNumber_append {s after : List Char} {n : Option JsonNumber}
    (h : readNumber s = some (n, after)) : readNumber (s ++ rest) = some (n, after ++ rest) := by
  unfold readNumber at h ⊢
  split at h
  · next s => exact readMagnitude_append hrest h
  · next hminus =>
    cases s with
    | nil => cases h
    | cons c s =>
      split
      · next heq => exact absurd (congrArg (· :: s) (List.cons.inj heq).1) (hminus s)
      · exact readMagnitude_append hrest h

end Follow

/-! ## Whole numbers -/

theorem digitsValue_toDigits (n : Nat) : digitsValue (Nat.toDigits 10 n) = n := by
  have hvalue := Nat.ofDigitChars_ten_toDigits (n := n)
  unfold Nat.ofDigitChars at hvalue
  unfold digitsValue digitValue
  simpa only [Nat.mul_comm] using hvalue

theorem digitChar_ne_zero : ∀ n < 10, n ≠ 0 → Nat.digitChar n ≠ '0' := by decide

theorem head?_toDigits {n : Nat} (h : n ≠ 0) : (Nat.toDigits 10 n).head? ≠ some '0' := by
  induction n using Nat.strongRecOn with
  | ind n ih =>
    by_cases hn : n < 10
    · rw [Nat.toDigits_of_lt_base hn]
      simpa using digitChar_ne_zero n hn h
    · have hhead := ih (n / 10) (by omega) (by omega)
      obtain ⟨c, s, hdigits⟩ :=
        List.exists_cons_of_ne_nil (Nat.toDigits_ne_nil (n := n / 10) (b := 10))
      rw [Nat.toDigits_of_base_le (by decide) (by omega)]
      rw [hdigits] at hhead ⊢
      exact hhead

theorem le_foldl_digits (s : List Char) (n : Nat) :
    n ≤ s.foldl (fun n c => n * 10 + digitValue c) n := by
  induction s generalizing n with
  | nil => exact Nat.le_refl n
  | cons c s ih => exact Nat.le_trans (by omega) (ih (n * 10 + digitValue c))

theorem absorbDigits_eq {s : List Char} {n : Nat}
    (h : s.foldl (fun n c => n * 10 + digitValue c) n < twoPow 64) :
    absorbDigits n s = (s.foldl (fun n c => n * 10 + digitValue c) n, []) := by
  induction s generalizing n with
  | nil => rfl
  | cons c s ih =>
    have hnext := Nat.lt_of_le_of_lt (le_foldl_digits s (n * 10 + digitValue c)) h
    simp only [absorbDigits, hnext, if_true, List.foldl_cons]
    exact ih h

theorem spanDigits_digits {s : List Char} (h : ∀ c ∈ s, c.isDigit = true) :
    spanDigits s = (s, []) := by
  induction s with
  | nil => rfl
  | cons c s ih =>
    obtain ⟨hc, hs⟩ := List.forall_mem_cons.mp h
    have ih := Prod.mk.inj (ih hs)
    simp [spanDigits, hc, ih.1, ih.2]

theorem readMagnitude_repr (negative : Bool) {n : Nat} (h : n < twoPow 64) :
    readMagnitude negative (Nat.repr n).toList = some (wholeNumber negative n, []) := by
  have hspan := spanDigits_digits fun c (hc : c ∈ (Nat.repr n).toList) => isDigit_of_mem_repr hc
  have htext : (Nat.repr n).toList = Nat.toDigits 10 n := by
    rw [Nat.repr_eq_ofList_toDigits, String.toList_ofList]
  rw [htext] at hspan ⊢
  have hvalue : (Nat.toDigits 10 n).foldl (fun n c => n * 10 + digitValue c) 0 = n :=
    digitsValue_toDigits n
  have habsorb : absorbDigits 0 (Nat.toDigits 10 n) = (n, []) := by
    rw [absorbDigits_eq (by rw [hvalue]; exact h), hvalue]
  have hzero : ¬((Nat.toDigits 10 n).isEmpty ||
      (decide ((Nat.toDigits 10 n).head? = some '0') &&
        decide (1 < (Nat.toDigits 10 n).length))) = true := by
    by_cases hn : n = 0
    · subst hn
      decide
    · simp [head?_toDigits hn, Nat.toDigits_ne_nil]
  unfold readMagnitude
  simp only [Option.bind_eq_bind, Option.pure_def, hspan, if_neg hzero, habsorb]
  rfl

theorem isDigit_head_repr (n : Nat) :
    ∃ c s, (Nat.repr n).toList = c :: s ∧ c.isDigit = true := by
  have hne : (Nat.repr n).toList ≠ [] := by
    rw [Nat.repr_eq_ofList_toDigits, String.toList_ofList]
    exact Nat.toDigits_ne_nil
  obtain ⟨c, s, hrepr⟩ := List.exists_cons_of_ne_nil hne
  exact ⟨c, s, hrepr, isDigit_of_mem_repr (n := n) (by rw [hrepr]; exact List.mem_cons_self ..)⟩

/-- Whole numbers of 64 bits, with a sign or without, are read back. -/
theorem readsBack_int {n : Int} (hlow : -(twoPow 63 : Int) ≤ n) (hhigh : n < twoPow 64) :
    (JsonNumber.int n).ReadsBack := by
  have h63 : (twoPow 63 : Int) = 9223372036854775808 := by decide
  have h64 : (twoPow 64 : Int) = 18446744073709551616 := by decide
  show readNumber (toString n).toList = _
  rw [Int.toString_eq_repr, Int.repr_eq_if]
  split
  · next hn =>
    have hread : readMagnitude false _ = _ := readMagnitude_repr false (n := n.toNat) (by omega)
    obtain ⟨c, s, hrepr, hc⟩ := isDigit_head_repr n.toNat
    rw [hrepr] at hread ⊢
    have hminus : c ≠ '-' := fun h => absurd hc (by rw [h]; decide)
    unfold readNumber
    split
    · next heq => exact absurd (List.cons.inj heq).1 hminus
    · rw [hread, wholeNumber, Int.toNat_of_nonneg hn]
      rfl
  · next hn =>
    rw [String.toList_append]
    show readMagnitude true (-n).toNat.repr.toList = _
    rw [readMagnitude_repr true (by omega)]
    have hzero : ¬((-n).toNat = 0 || twoPow 63 < (-n).toNat) = true := by
      simp only [Bool.or_eq_true, decide_eq_true_eq, not_or]
      omega
    unfold wholeNumber
    rw [if_neg (by decide), if_neg hzero, show -(((-n).toNat : Nat) : Int) = n by omega]

end Json

end SnippetRunner
