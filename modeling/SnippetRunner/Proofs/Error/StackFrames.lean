import Mathlib.Data.List.Induction
import SnippetRunner.Error.Frame
import SnippetRunner.Proofs.Json.Number
import SnippetRunner.Proofs.Script.Containment
import SnippetRunner.Proofs.Text.Cut

/-
  The frames of a stack text. A frame is the name of the script with the digits of a line, and with
  those of a column if they follow. Between the frames anything may stand, and the digits need not
  be those of a number. `ofStack?_first_frame`: the position is that of the first frame whose line
  is a number above that of the wrapper lines, and there is none exactly if no frame has such a
  line. No two frames overlap, so nothing is lost by searching on behind each of them
  (`searches_all`).
-/
namespace SnippetRunner

open SnippetRunner.Text

/-! ## Decimal numerals -/

namespace Text

/-- The digits are a decimal numeral of `n`, maybe with zeros in front, and `n` has 64 bits. -/
def IsDecimalOf (digits : List Char) (n : Nat) : Prop :=
  n < twoPow 64 ∧ ∃ zeros, digits = List.replicate zeros '0' ++ (Nat.repr n).toList

theorem digitsValue_eq (s : List Char) : digitsValue s = Nat.ofDigitChars 10 s 0 := by
  unfold digitsValue digitValue Nat.ofDigitChars
  simp only [Nat.mul_comm]

theorem digitChar_digitValue {c : Char} (h : c.isDigit = true) :
    digitValue c < 10 ∧ Nat.digitChar (digitValue c) = c := by
  have hchars : ∀ n < 10, Nat.digitChar n = Char.ofNat (48 + n) := by decide
  have hrange : 48 ≤ c.toNat ∧ c.toNat ≤ 57 := by
    simpa [Char.isDigit, UInt32.le_iff_toNat_le] using h
  have hvalue : digitValue c = c.toNat - 48 := rfl
  refine ⟨by omega, ?_⟩
  rw [hchars _ (by omega), hvalue, Nat.add_sub_cancel' hrange.1, Char.ofNat_toNat]

/-- A text of digits is a numeral of the number that it stands for. -/
theorem exists_zeros {s : List Char} (hne : s ≠ []) (h : ∀ c ∈ s, c.isDigit = true) :
    ∃ zeros, s = List.replicate zeros '0' ++ Nat.toDigits 10 (digitsValue s) := by
  induction s using List.reverseRecOn with
  | nil => exact absurd rfl hne
  | append_singleton s c ih =>
    obtain ⟨hs, hc⟩ := List.forall_mem_append.mp h
    obtain ⟨hlt, hchar⟩ := digitChar_digitValue (hc c (List.mem_singleton_self c))
    have hvalue : digitsValue (s ++ [c]) = 10 * digitsValue s + digitValue c := by
      simp [digitsValue, Nat.mul_comm]
    have hlast : Nat.toDigits 10 (digitValue c) = [c] := by
      rw [Nat.toDigits_of_lt_base hlt, hchar]
    by_cases hempty : s = []
    · subst hempty
      refine ⟨0, ?_⟩
      rw [hvalue]
      simpa [digitsValue] using hlast.symm
    · obtain ⟨zeros, hzeros⟩ := ih hempty hs
      by_cases hzero : digitsValue s = 0
      · -- the digits before are zeros alone
        refine ⟨zeros + 1, ?_⟩
        rw [hzero, Nat.toDigits_zero] at hzeros
        rw [hvalue, hzero, Nat.mul_zero, Nat.zero_add, hlast, hzeros, List.replicate_succ']
      · refine ⟨zeros, ?_⟩
        have hjoin := Nat.toDigits_append_toDigits (b := 10) (by decide)
          (Nat.pos_of_ne_zero hzero) hlt
        rw [hvalue, ← hjoin, hlast, ← List.append_assoc, ← hzeros]

theorem unsigned?_eq_some_iff {digits : List Char} {n : Nat} :
    unsigned? digits = some n ↔ IsDecimalOf digits n := by
  unfold unsigned? IsDecimalOf
  rw [Nat.toList_repr]
  constructor
  · intro h
    split at h
    · next htest =>
      obtain rfl := Option.some.inj h
      simp only [Bool.and_eq_true, Bool.not_eq_true', List.isEmpty_eq_false_iff, List.all_eq_true,
        decide_eq_true_eq] at htest
      exact ⟨htest.2, exists_zeros htest.1.1 htest.1.2⟩
    · cases h
  · rintro ⟨hlt, zeros, rfl⟩
    have hvalue : digitsValue (List.replicate zeros '0' ++ Nat.toDigits 10 n) = n := by
      rw [digitsValue_eq, Nat.ofDigitChars_append, Nat.ofDigitChars_replicate_zero, Nat.mul_zero,
        Nat.ofDigitChars_ten_toDigits]
    have hdigits : ∀ c ∈ List.replicate zeros '0' ++ Nat.toDigits 10 n, c.isDigit = true := by
      intro c hc
      rcases List.mem_append.mp hc with hc | hc
      · rw [List.eq_of_mem_replicate hc]
        rfl
      · exact Nat.isDigit_of_mem_toDigits (by decide) (by decide) hc
    rw [hvalue, if_pos]
    simp [List.all_eq_true.mpr hdigits, hlt, Nat.toDigits_ne_nil]

end Text

/-! ## Frames -/

namespace Frame

/-- `rest` does not go on with the digits of a number before it. -/
def EndsDigits (rest : List Char) : Prop := ∀ c ∈ rest.head?, isDigit c = false

/-- A frame at the head of a text, and what follows it. Its digits are as many as stand there. -/
inductive Reads : (text : List Char) → Frame → (rest : List Char) → Prop
  | line {name line rest : List Char} (hname : name ∈ scriptNames) (hne : line ≠ [])
      (hline : ∀ c ∈ line, isDigit c = true) (hend : EndsDigits rest)
      (hcolumn : ∀ after, rest = ':' :: after → EndsDigits after) :
      Reads (name ++ ':' :: (line ++ rest)) ⟨line, none⟩ rest
  | column {name line column rest : List Char} (hname : name ∈ scriptNames) (hne : line ≠ [])
      (hline : ∀ c ∈ line, isDigit c = true) (hne' : column ≠ [])
      (hcolumn : ∀ c ∈ column, isDigit c = true) (hend : EndsDigits rest) :
      Reads (name ++ ':' :: (line ++ ':' :: (column ++ rest))) ⟨line, some column⟩ rest

/-- The frame stands in the stack text behind `before`. -/
def StandsBehind (stack before : List Char) (frame : Frame) : Prop :=
  ∃ text rest, stack = before ++ text ∧ Reads text frame rest

/-- What a search for frames finds that goes on behind each frame found: the first frame of the
text, and what it finds in the rest. -/
inductive Searches : List Char → List Frame → Prop
  | done {s : List Char} (h : ∀ before frame, ¬StandsBehind s before frame) : Searches s []
  | next {before text rest : List Char} {frame : Frame} {frames : List Frame}
      (hread : Reads text frame rest)
      (hfirst : ∀ earlier other, StandsBehind (before ++ text) earlier other →
        before.length ≤ earlier.length)
      (h : Searches rest frames) : Searches (before ++ text) (frame :: frames)

/-- The frame is at the line `k` of the script, `wrapperLines` further down in the wrapped text,
and at the column that it gives, or the first one if it gives no number. -/
inductive PointsAt (wrapperLines : Nat) : Frame → Position → Prop
  | column {line column : List Char} {k c : Nat} (hk : 1 ≤ k)
      (hline : IsDecimalOf line (k + wrapperLines)) (hcolumn : IsDecimalOf column c) :
      PointsAt wrapperLines ⟨line, some column⟩ ⟨k, c⟩
  | noColumn {line : List Char} {column : Option (List Char)} {k : Nat} (hk : 1 ≤ k)
      (hline : IsDecimalOf line (k + wrapperLines))
      (hcolumn : ∀ digits ∈ column, ∀ c, ¬IsDecimalOf digits c) :
      PointsAt wrapperLines ⟨line, column⟩ ⟨k, 1⟩

/-! ## One frame -/

theorem endsDigits_colon (after : List Char) : EndsDigits (':' :: after) := by
  rintro c ⟨⟩
  decide

theorem endsDigits_dropWhile (s : List Char) : EndsDigits (s.dropWhile isDigit) := by
  intro c hc
  have hnot := List.head?_dropWhile_not isDigit s
  rw [hc] at hnot
  simpa using hnot

theorem takeWhile_digits {digits rest : List Char} (hdigits : ∀ c ∈ digits, isDigit c = true)
    (hend : EndsDigits rest) : (digits ++ rest).takeWhile isDigit = digits := by
  rw [List.takeWhile_append_of_pos hdigits]
  cases rest with
  | nil => simp
  | cons c rest => rw [List.takeWhile_cons_of_neg (by simp [hend c rfl]), List.append_nil]

theorem dropWhile_digits {digits rest : List Char} (hdigits : ∀ c ∈ digits, isDigit c = true)
    (hend : EndsDigits rest) : (digits ++ rest).dropWhile isDigit = rest := by
  rw [List.dropWhile_append_of_pos hdigits]
  cases rest with
  | nil => rfl
  | cons c rest => exact List.dropWhile_cons_of_neg (by simp [hend c rfl])

theorem colonDigits?_eq_some_iff {s digits rest : List Char} :
    colonDigits? s = some (digits, rest) ↔ s = ':' :: (digits ++ rest) ∧ digits ≠ [] ∧
      (∀ c ∈ digits, isDigit c = true) ∧ EndsDigits rest := by
  constructor
  · intro h
    unfold colonDigits? at h
    split at h
    · next tail =>
      dsimp only at h
      split at h
      · cases h
      · next hne =>
        obtain ⟨rfl, rfl⟩ := Prod.mk.inj (Option.some.inj h)
        rw [List.isEmpty_iff] at hne
        refine ⟨by rw [List.takeWhile_append_dropWhile], hne, ?_, endsDigits_dropWhile tail⟩
        exact fun c hc => List.mem_takeWhile_imp hc
    · cases h
  · rintro ⟨rfl, hne, hdigits, hend⟩
    simp only [colonDigits?, takeWhile_digits hdigits hend, dropWhile_digits hdigits hend,
      List.isEmpty_iff, if_neg hne]

theorem colonDigits?_eq_none_iff {s : List Char} :
    colonDigits? s = none ↔ ∀ after, s = ':' :: after → EndsDigits after := by
  constructor
  · rintro h after rfl
    intro c hc
    obtain ⟨rest, rfl⟩ := List.head?_eq_some_iff.mp hc
    cases hdigit : isDigit c with
    | false => rfl
    | true =>
      simp only [colonDigits?, List.takeWhile_cons_of_pos hdigit] at h
      cases h
  · intro h
    unfold colonDigits?
    split
    · next after =>
      have hend : ([] ++ after).takeWhile isDigit = [] := takeWhile_digits (by simp) (h after rfl)
      rw [List.nil_append] at hend
      simp [hend]
    · rfl

theorem afterName_eq_some_iff {s after : List Char} :
    (scriptNames.findSome? fun name => dropStart? name s) = some after ↔
      ∃ name ∈ scriptNames, s = name ++ after := by
  constructor
  · intro h
    obtain ⟨name, hname, hdrop⟩ := List.exists_of_findSome?_eq_some h
    exact ⟨name, hname, dropStart?_eq_some_iff.mp hdrop⟩
  · rintro ⟨name, hname, rfl⟩
    -- the two names begin with different letters
    rcases List.mem_cons.mp hname with rfl | hname
    · rw [scriptNames, List.map_cons, List.findSome?_cons, dropStart?_eq_some_iff.mpr rfl]
    · obtain rfl := List.mem_singleton.mp hname
      rfl

theorem read?_eq_some_iff {s : List Char} {frame : Frame} :
    read? s = some frame ↔ ∃ rest, Reads s frame rest := by
  unfold read?
  rw [Option.bind_eq_bind, Option.bind_eq_some_iff]
  simp only [afterName_eq_some_iff]
  constructor
  · rintro ⟨after, ⟨name, hname, rfl⟩, h⟩
    obtain ⟨⟨line, rest⟩, hline, hframe⟩ := Option.bind_eq_some_iff.mp h
    obtain ⟨rfl, hne, hdigits, hend⟩ := colonDigits?_eq_some_iff.mp hline
    obtain rfl := Option.some.inj hframe
    cases hcolumn : colonDigits? rest with
    | none => exact ⟨rest, .line hname hne hdigits hend (colonDigits?_eq_none_iff.mp hcolumn)⟩
    | some read =>
      obtain ⟨column, rest'⟩ := read
      obtain ⟨rfl, hne', hdigits', hend'⟩ := colonDigits?_eq_some_iff.mp hcolumn
      exact ⟨rest', .column hname hne hdigits hne' hdigits' hend'⟩
  · rintro ⟨rest, h⟩
    cases h with
    | line hname hne hdigits hend hcolumn =>
      refine ⟨_, ⟨_, hname, rfl⟩, ?_⟩
      rw [Option.bind_eq_bind, colonDigits?_eq_some_iff.mpr ⟨rfl, hne, hdigits, hend⟩,
        Option.bind_some, colonDigits?_eq_none_iff.mpr hcolumn]
      rfl
    | column hname hne hdigits hne' hdigits' hend =>
      refine ⟨_, ⟨_, hname, rfl⟩, ?_⟩
      rw [Option.bind_eq_bind, colonDigits?_eq_some_iff.mpr ⟨rfl, hne, hdigits, endsDigits_colon _⟩,
        Option.bind_some, colonDigits?_eq_some_iff.mpr ⟨rfl, hne', hdigits', hend⟩]
      rfl

/-! ## All frames -/

section All

variable {s text rest before : List Char} {c : Char} {frame : Frame} {frames : List Frame}

/-- A frame is a name of the script, a colon, and digits with at most one more colon. -/
theorem Reads.exists_text (h : Reads text frame rest) :
    ∃ name ∈ scriptNames, ∃ marks, text = name ++ (':' :: marks ++ rest) ∧
      ∀ c ∈ marks, c = ':' ∨ isDigit c = true := by
  cases h with
  | @line name line _ hname _ hline _ _ =>
    exact ⟨name, hname, line, by simp, fun c hc => .inr (hline c hc)⟩
  | @column name line column _ hname _ hline _ hcolumn _ =>
    refine ⟨name, hname, line ++ ':' :: column, by simp, fun c hc => ?_⟩
    rcases List.mem_append.mp hc with hc | hc
    · exact .inr (hline c hc)
    · exact (List.mem_cons.mp hc).imp_right (hcolumn c)

theorem colonless_of_mem_scriptNames {name : List Char} (h : name ∈ scriptNames) :
    ∀ c ∈ name, c ≠ ':' ∧ isDigit c = false := by
  have hall : (scriptNames.all fun name => name.all fun c => c ≠ ':' && !isDigit c) = true := by
    decide
  intro c hc
  simpa using List.all_eq_true.mp (List.all_eq_true.mp hall name h) c hc

theorem ne_nil_of_mem_scriptNames {name : List Char} (h : name ∈ scriptNames) : name ≠ [] := by
  rintro rfl
  exact absurd h (by decide)

/-- No name of the script ends with another, or with itself further on. -/
theorem not_isSuffix_tail {name other : List Char} (hname : name ∈ scriptNames)
    (hother : other ∈ scriptNames) : ¬other <:+ name.tail := by
  have hall : (scriptNames.all fun name =>
      scriptNames.all fun other => !other.isSuffixOf name.tail) = true := by
    decide
  have h := List.all_eq_true.mp (List.all_eq_true.mp hall name hname) other hother
  rw [← List.isSuffixOf_iff_suffix, Bool.not_eq_true]
  simpa using h

theorem takeWhile_colonless {name : List Char} (h : name ∈ scriptNames) (after : List Char) :
    (name ++ ':' :: after).takeWhile (· ≠ ':') = name := by
  rw [List.takeWhile_append_of_pos fun c hc => by
      simpa using (colonless_of_mem_scriptNames h c hc).1,
    List.takeWhile_cons_of_neg (by simp), List.append_nil]

/-- Within a frame no other begins. -/
theorem Reads.separate (h : Reads text frame rest) :
    ∃ c taken, text = c :: (taken ++ rest) ∧
      ∀ a b, taken = a ++ b → b ≠ [] → read? (b ++ rest) = none := by
  obtain ⟨name, hname, marks, rfl, hmarks⟩ := h.exists_text
  obtain ⟨c, letters, rfl⟩ := List.exists_cons_of_ne_nil (ne_nil_of_mem_scriptNames hname)
  refine ⟨c, letters ++ ':' :: marks, by simp, fun a b hcut hb => ?_⟩
  refine Option.eq_none_iff_forall_ne_some.mpr fun other hother => ?_
  obtain ⟨rest', hreads⟩ := read?_eq_some_iff.mp hother
  obtain ⟨name', hname', marks', htext, -⟩ := hreads.exists_text
  rcases List.append_eq_append_iff.mp hcut with ⟨m, -, hmb⟩ | ⟨m, rfl, rfl⟩
  · -- what is left begins with a colon or a digit
    obtain ⟨d, b, rfl⟩ := List.exists_cons_of_ne_nil hb
    obtain ⟨e, name', rfl⟩ := List.exists_cons_of_ne_nil (ne_nil_of_mem_scriptNames hname')
    have hde : d = e := (List.cons.inj htext).1
    have hmark : d = ':' ∨ isDigit d = true := by
      have hd : d ∈ ':' :: marks := by simp [hmb]
      exact (List.mem_cons.mp hd).elim Or.inl (hmarks d)
    have hletter := colonless_of_mem_scriptNames hname' e (List.mem_cons_self ..)
    rw [← hde] at hletter
    rcases hmark with hmark | hmark
    · exact hletter.1 hmark
    · rw [hmark] at hletter
      exact absurd hletter.2 (by decide)
  · -- what is left begins with the last letters of the name
    have hcolonless : ∀ d ∈ m, decide (d ≠ ':') = true := fun d hd => by
      simpa using (colonless_of_mem_scriptNames hname d (by simp [hd])).1
    have hm : m = name' := by
      have htake := congrArg (List.takeWhile (· ≠ ':')) htext
      rw [List.append_assoc, List.takeWhile_append_of_pos hcolonless, List.cons_append,
        List.takeWhile_cons_of_neg (by simp), List.append_nil, List.cons_append,
        takeWhile_colonless hname'] at htake
      exact htake
    refine not_isSuffix_tail hname hname' ?_
    rw [← hm]
    exact List.suffix_append a m

theorem all_append_of_quiet {taken : List Char}
    (h : ∀ a b, taken = a ++ b → b ≠ [] → read? (b ++ rest) = none) :
    all (taken ++ rest) = all rest := by
  induction taken with
  | nil => rfl
  | cons c taken ih =>
    have hnone := h [] (c :: taken) rfl (List.cons_ne_nil _ _)
    rw [List.cons_append] at hnone
    rw [List.cons_append, all, hnone]
    refine ih fun a b hcut hb => h (c :: a) b ?_ hb
    rw [hcut, List.cons_append]

theorem not_standsBehind_nil : ¬StandsBehind [] before frame := by
  rintro ⟨text, rest, hsplit, hreads⟩
  obtain ⟨name, hname, marks, rfl, -⟩ := hreads.exists_text
  obtain ⟨-, hnil⟩ := List.append_eq_nil_iff.mp hsplit.symm
  exact ne_nil_of_mem_scriptNames hname (List.append_eq_nil_iff.mp hnil).1

theorem standsBehind_cons : StandsBehind (c :: s) before frame ↔
    (before = [] ∧ read? (c :: s) = some frame) ∨
      ∃ init, before = c :: init ∧ StandsBehind s init frame := by
  rw [read?_eq_some_iff]
  constructor
  · rintro ⟨text, rest, hsplit, hreads⟩
    cases before with
    | nil =>
      rw [hsplit]
      exact .inl ⟨rfl, rest, hreads⟩
    | cons d init =>
      obtain ⟨rfl, rfl⟩ := List.cons.inj hsplit
      exact .inr ⟨init, rfl, text, rest, rfl, hreads⟩
  · rintro (⟨rfl, rest, hreads⟩ | ⟨init, rfl, text, rest, rfl, hreads⟩)
    · exact ⟨c :: s, rest, rfl, hreads⟩
    · exact ⟨text, rest, rfl, hreads⟩

theorem mem_all_iff : frame ∈ all s ↔ ∃ before, StandsBehind s before frame := by
  induction s with
  | nil => exact iff_of_false List.not_mem_nil fun ⟨_, h⟩ => not_standsBehind_nil h
  | cons c s ih =>
    simp only [all, List.mem_append, Option.mem_toList, ih, standsBehind_cons]
    constructor
    · rintro (h | ⟨before, h⟩)
      · exact ⟨[], .inl ⟨rfl, h⟩⟩
      · exact ⟨c :: before, .inr ⟨before, rfl, h⟩⟩
    · rintro ⟨before, ⟨-, h⟩ | ⟨init, -, h⟩⟩
      · exact .inl h
      · exact .inr ⟨init, h⟩

theorem Searches.cons (hread : read? (c :: s) = none) (h : Searches s frames) :
    Searches (c :: s) frames := by
  cases h with
  | done h =>
    refine .done fun before frame hstands => ?_
    rcases standsBehind_cons.mp hstands with ⟨-, hhead⟩ | ⟨init, -, hstands⟩
    · rw [hread] at hhead
      cases hhead
    · exact h init frame hstands
  | @next before text _ _ _ hreads hfirst h =>
    refine @Searches.next (c :: before) _ _ _ _ hreads (fun earlier other hstands => ?_) h
    rw [List.cons_append] at hstands
    rcases standsBehind_cons.mp hstands with ⟨-, hhead⟩ | ⟨init, rfl, hrest⟩
    · rw [hread] at hhead
      cases hhead
    · exact Nat.succ_le_succ (hfirst init other hrest)

/-- The frames of a text are what a search finds that goes on behind each of them. -/
theorem searches_all (s : List Char) : Searches s (all s) := by
  induction hlength : s.length using Nat.strongRecOn generalizing s with
  | ind n ih =>
    cases s with
    | nil => exact .done fun _ _ => not_standsBehind_nil
    | cons c s =>
      cases hread : read? (c :: s) with
      | none =>
        rw [all, hread]
        exact (ih s.length (by rw [← hlength]; exact Nat.lt_succ_self _) s rfl).cons hread
      | some frame =>
        obtain ⟨rest, hreads⟩ := read?_eq_some_iff.mp hread
        obtain ⟨d, taken, hsplit, hquiet⟩ := hreads.separate
        obtain ⟨rfl, rfl⟩ := List.cons.inj hsplit
        rw [all, hread, all_append_of_quiet hquiet]
        refine @Searches.next [] _ _ _ _ hreads (fun _ _ _ => Nat.zero_le _) ?_
        refine ih rest.length ?_ rest rfl
        rw [← hlength, List.length_cons, List.length_append]
        omega

end All

/-! ## Positions -/

theorem position?_eq_some_iff {wrapperLines : Nat} {frame : Frame} {p : Position} :
    frame.position? wrapperLines = some p ↔ frame.PointsAt wrapperLines p := by
  unfold position?
  rw [Option.bind_eq_bind, Option.bind_eq_some_iff]
  constructor
  · rintro ⟨line, hline, h⟩
    rw [unsigned?_eq_some_iff] at hline
    split at h
    · next hlt =>
      obtain rfl := Option.some.inj h
      have hk : 1 ≤ line - wrapperLines := Nat.sub_pos_of_lt hlt
      rw [← Nat.sub_add_cancel (Nat.le_of_lt hlt)] at hline
      obtain ⟨digits, column⟩ := frame
      cases hcolumn : column.bind unsigned? with
      | none =>
        refine .noColumn hk hline fun digits hdigits c hc => ?_
        rw [Option.bind_eq_none_iff] at hcolumn
        have hnone := hcolumn digits hdigits
        rw [unsigned?_eq_some_iff.mpr hc] at hnone
        cases hnone
      | some c =>
        obtain ⟨digits, rfl, hdigits⟩ := Option.bind_eq_some_iff.mp hcolumn
        exact .column hk hline (unsigned?_eq_some_iff.mp hdigits)
    · cases h
  · intro h
    cases h with
    | column hk hline hcolumn =>
      refine ⟨_, unsigned?_eq_some_iff.mpr hline, ?_⟩
      rw [if_pos (Nat.lt_add_of_pos_left hk), Nat.add_sub_cancel, Option.bind_some,
        unsigned?_eq_some_iff.mpr hcolumn]
      rfl
    | @noColumn line column k hk hline hcolumn =>
      have hnone : column.bind unsigned? = none := by
        rw [Option.bind_eq_none_iff]
        intro digits hdigits
        refine Option.eq_none_iff_forall_ne_some.mpr fun c hc => ?_
        exact hcolumn digits hdigits c (unsigned?_eq_some_iff.mp hc)
      refine ⟨_, unsigned?_eq_some_iff.mpr hline, ?_⟩
      rw [if_pos (Nat.lt_add_of_pos_left hk), Nat.add_sub_cancel, hnone]
      rfl

theorem not_pointsAt_of_position? {wrapperLines : Nat} {frame : Frame} :
    frame.position? wrapperLines = none ↔ ∀ p, ¬frame.PointsAt wrapperLines p := by
  simp only [← position?_eq_some_iff]
  exact Option.eq_none_iff_forall_ne_some

/-- A frame within the wrapper lines points nowhere in the script. -/
theorem not_pointsAt_of_le {wrapperLines n : Nat} {frame : Frame} (hle : n ≤ wrapperLines)
    (hline : IsDecimalOf frame.line n) (p : Position) : ¬frame.PointsAt wrapperLines p := by
  have hlines {k : Nat} (hk : 1 ≤ k) (h : IsDecimalOf frame.line (k + wrapperLines)) : False := by
    rw [← unsigned?_eq_some_iff] at h hline
    have heq : n = k + wrapperLines := Option.some.inj (hline.symm.trans h)
    omega
  intro h
  cases h with
  | column hk h _ => exact hlines hk h
  | noColumn hk h _ => exact hlines hk h

/-- The frame is the first of the stack text that points anywhere in the script, and it points
there. -/
structure IsFirst (wrapperLines : Nat) (stack before : List Char) (frame : Frame) (p : Position) :
    Prop where
  stands : StandsBehind stack before frame
  points : frame.PointsAt wrapperLines p
  earlier : ∀ init other, StandsBehind stack init other → init.length < before.length →
    ∀ q, ¬other.PointsAt wrapperLines q

theorem isFirst_cons_of_none {wrapperLines : Nat} {c : Char} {s before : List Char} {frame : Frame}
    {p : Position} (h : ∀ other, read? (c :: s) = some other →
      other.position? wrapperLines = none) :
    IsFirst wrapperLines (c :: s) before frame p ↔
      ∃ init, before = c :: init ∧ IsFirst wrapperLines s init frame p := by
  constructor
  · rintro ⟨hstands, hpoints, hearlier⟩
    rcases standsBehind_cons.mp hstands with ⟨-, hread⟩ | ⟨init, rfl, hrest⟩
    · exact absurd hpoints (not_pointsAt_of_position?.mp (h frame hread) p)
    · refine ⟨init, rfl, hrest, hpoints, fun first other hother hlt => ?_⟩
      exact hearlier (c :: first) other (standsBehind_cons.mpr (.inr ⟨first, rfl, hother⟩))
        (Nat.succ_lt_succ hlt)
  · rintro ⟨init, rfl, hstands, hpoints, hearlier⟩
    refine ⟨standsBehind_cons.mpr (.inr ⟨init, rfl, hstands⟩), hpoints, ?_⟩
    intro first other hother
    rcases standsBehind_cons.mp hother with ⟨-, hread⟩ | ⟨first, rfl, hrest⟩
    · exact fun _ => not_pointsAt_of_position?.mp (h other hread)
    · exact fun hlt => hearlier first other hrest (Nat.lt_of_succ_lt_succ hlt)

end Frame

open SnippetRunner.Frame

theorem Position.ofStack?_eq_some_iff {stack : List Char} {wrapperLines : Nat} {p : Position} :
    Position.ofStack? stack wrapperLines = some p ↔
      ∃ before frame, IsFirst wrapperLines stack before frame p := by
  unfold Position.ofStack?
  induction stack with
  | nil =>
    refine iff_of_false nofun ?_
    rintro ⟨before, frame, h⟩
    exact not_standsBehind_nil h.stands
  | cons c s ih =>
    rw [all, List.findSome?_append]
    by_cases hnone : ∀ other, read? (c :: s) = some other →
        other.position? wrapperLines = none
    · have hhead : (read? (c :: s)).toList.findSome? (position? wrapperLines) = none := by
        refine List.findSome?_eq_none_iff.mpr fun other hother => ?_
        exact hnone other (Option.mem_toList.mp hother)
      rw [hhead, Option.none_or, ih]
      simp only [isFirst_cons_of_none hnone]
      constructor
      · rintro ⟨init, frame, h⟩
        exact ⟨c :: init, frame, init, rfl, h⟩
      · rintro ⟨_, frame, init, -, h⟩
        exact ⟨init, frame, h⟩
    · push Not at hnone
      obtain ⟨frame, hread, hsome⟩ := hnone
      obtain ⟨q, hq⟩ := Option.ne_none_iff_exists'.mp hsome
      have hhead : (read? (c :: s)).toList.findSome? (position? wrapperLines) = some q := by
        rw [hread]
        simp [hq]
      have hstands : StandsBehind (c :: s) [] frame := standsBehind_cons.mpr (.inl ⟨rfl, hread⟩)
      rw [hhead, Option.some_or, Option.some.injEq]
      constructor
      · rintro rfl
        exact ⟨[], frame, hstands, position?_eq_some_iff.mp hq, fun _ _ _ h => nomatch h⟩
      · rintro ⟨before, other, h⟩
        rcases standsBehind_cons.mp h.stands with ⟨-, hother⟩ | ⟨init, rfl, -⟩
        · obtain rfl := Option.some.inj (hread.symm.trans hother)
          exact Option.some.inj (hq.symm.trans (position?_eq_some_iff.mpr h.points))
        · exact absurd (position?_eq_some_iff.mp hq)
            (h.earlier [] frame hstands (Nat.succ_pos _) q)

theorem Position.ofStack?_eq_none_iff {stack : List Char} {wrapperLines : Nat} :
    Position.ofStack? stack wrapperLines = none ↔ ∀ before frame p,
      StandsBehind stack before frame → ¬frame.PointsAt wrapperLines p := by
  unfold Position.ofStack?
  simp only [List.findSome?_eq_none_iff, mem_all_iff, not_pointsAt_of_position?]
  constructor
  · exact fun h before frame p hstands => h frame ⟨before, hstands⟩ p
  · rintro h frame ⟨before, hstands⟩ p
    exact h before frame p hstands

/-! ## The wrapper lines -/

namespace Script

theorem exists_wrapperHead {keyword : List Char} (h : keyword ∈ functionKeywords) :
    ∃ line, wrapperHead keyword = line ++ ['\n'] ∧ ∀ c ∈ line, decide (c = '\n') = false := by
  have hline : (wrapperHead keyword).dropLast.all (· ≠ '\n') = true := by
    rcases eq_or_eq_of_mem_keywords h with rfl | rfl <;> decide
  refine ⟨(wrapperHead keyword).dropLast, ?_, fun c hc => ?_⟩
  · rcases eq_or_eq_of_mem_keywords h with rfl | rfl <;> decide
  · simpa using List.all_eq_true.mp hline c hc

theorem exists_wrapperTail {tail : List Char} (h : tail ∈ wrapperTails) :
    ∃ rest, tail = '\n' :: rest := by
  rcases eq_or_eq_of_mem_tails h with rfl | rfl
  · exact ⟨"\x7d)".toList, by decide⟩
  · exact ⟨"\x7d)()".toList, by decide⟩

/-- The lines of a script stand in the wrapped text as they are, behind the wrapper lines. -/
theorem lines_wrapInvocation (script : List Char) (isAsync : Bool) :
    ∃ head tail, head.length = wrapperLines ∧
      splitBetween (· = '\n') (wrapInvocation script isAsync) =
        head ++ (splitBetween (· = '\n') script ++ tail) := by
  obtain ⟨keyword, hkeyword, tail, htail, htext⟩ := wrapInvocation_eq script isAsync
  obtain ⟨line, hhead, hline⟩ := exists_wrapperHead hkeyword
  obtain ⟨rest, rfl⟩ := exists_wrapperTail htail
  refine ⟨[line], splitBetween (· = '\n') rest, rfl, ?_⟩
  rw [htext, hhead, List.append_assoc, List.singleton_append,
    splitBetween_append_marked _ hline (by decide), splitBetween_append_cons (by decide)]
  rfl

end Script

/-- The position of a stack text is that of its first frame, from the left, whose line is a number
greater than that of the wrapper lines: so many lines less, hence at least 1, and the column of the
frame, or 1 if it has none that is a number. There is a position exactly if there is such a frame.
All frames of the text count, and they are what a search finds that goes on behind each of them.
So behind frames in the wrapper lines a frame gives the line of the script that it is at, for the
wrapped text has the lines of the script behind the wrapper lines. -/
theorem ofStack?_first_frame (stack : List Char) (wrapperLines : Nat) :
    (∀ p, Position.ofStack? stack wrapperLines = some p ↔
        ∃ before frame, IsFirst wrapperLines stack before frame p) ∧
      (Position.ofStack? stack wrapperLines = none ↔ ∀ before frame p,
        StandsBehind stack before frame → ¬frame.PointsAt wrapperLines p) ∧
      (∀ frame, frame ∈ all stack ↔ ∃ before, StandsBehind stack before frame) ∧
      Searches stack (all stack) ∧
      (∀ before line column k c, StandsBehind stack before ⟨line, some column⟩ → 1 ≤ k →
        IsDecimalOf line (k + wrapperLines) → IsDecimalOf column c →
        (∀ earlier other, StandsBehind stack earlier other → earlier.length < before.length →
          ∃ n ≤ wrapperLines, IsDecimalOf other.line n) →
        Position.ofStack? stack wrapperLines = some ⟨k, c⟩) ∧
      ∀ script isAsync, ∃ head tail, head.length = Script.wrapperLines ∧
        splitBetween (· = '\n') (Script.wrapInvocation script isAsync) =
          head ++ (splitBetween (· = '\n') script ++ tail) := by
  refine ⟨fun p => Position.ofStack?_eq_some_iff, Position.ofStack?_eq_none_iff,
    fun frame => mem_all_iff, searches_all stack, ?next, Script.lines_wrapInvocation⟩
  case next =>
    intro before line column k c hstands hk hline hcolumn hearlier
    refine Position.ofStack?_eq_some_iff.mpr ⟨before, _, hstands, .column hk hline hcolumn, ?_⟩
    intro earlier other hother hlt
    obtain ⟨n, hle, hn⟩ := hearlier earlier other hother hlt
    exact not_pointsAt_of_le hle hn

/-- A frame in the wrapper, one whose line is too great for a number, and one in the script. -/
example : Position.ofStack? ("eval_script:1:2 eval_script:99999999999999999999:1 " ++
    "scratchpad.js:05:x").toList 1 = some ⟨4, 1⟩ := by
  decide +kernel

end SnippetRunner
