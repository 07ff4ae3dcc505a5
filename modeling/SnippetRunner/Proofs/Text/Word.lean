import SnippetRunner.Proofs.Text.Cut
import SnippetRunner.Text.Blank
import SnippetRunner.Text.Word

/-
  Blanks stand between words: no blank character is part of one. Within ASCII that is read off the
  few blanks there; beyond, the ranges of blanks and those of word characters are disjoint. So a
  text is cut into words at its blanks.
-/
namespace SnippetRunner.Text

/-- The code points of the blank characters of ASCII. -/
def lowBlankCodes : List Nat := [9, 10, 11, 12, 13, 0x20]

/-- The ranges of the blank characters. -/
def blankRanges : List (Nat × Nat) :=
  [(9, 13), (0x20, 0x20), (0x85, 0x85), (0xA0, 0xA0), (0x1680, 0x1680), (0x2000, 0x200A),
    (0x2028, 0x2029), (0x202F, 0x202F), (0x205F, 0x205F), (0x3000, 0x3000)]

/-- No number lies in a range of each of the tables. -/
def AreDisjoint (s t : List (Nat × Nat)) : Prop := ∀ a ∈ s, ∀ b ∈ t, a.2 < b.1 ∨ b.2 < a.1

instance (s t : List (Nat × Nat)) : Decidable (AreDisjoint s t) :=
  inferInstanceAs (Decidable (∀ a ∈ s, ∀ b ∈ t, a.2 < b.1 ∨ b.2 < a.1))

variable {c : Char}

theorem inRanges_iff {table : List (Nat × Nat)} :
    inRanges table c = true ↔ ∃ r ∈ table, r.1 ≤ c.toNat ∧ c.toNat ≤ r.2 := by
  simp [inRanges]

theorem AreDisjoint.not_inRanges {s t : List (Nat × Nat)} (h : AreDisjoint s t)
    (hs : inRanges s c = true) : inRanges t c = false := by
  cases ht : inRanges t c with
  | false => rfl
  | true =>
    obtain ⟨a, ha, hlow, hhigh⟩ := inRanges_iff.mp hs
    obtain ⟨b, hb, hlow', hhigh'⟩ := inRanges_iff.mp ht
    rcases h a ha b hb with hlt | hlt <;> omega

theorem inRanges_blankRanges (h : isBlank c = true) : inRanges blankRanges c = true := by
  simp only [isBlank, Bool.or_eq_true, Bool.and_eq_true, decide_eq_true_eq] at h
  simp only [inRanges, blankRanges, List.any_cons, List.any_nil, Bool.or_false, Bool.or_eq_true,
    Bool.and_eq_true, decide_eq_true_eq]
  omega

theorem of_isBlank_of_low {p : Char → Bool} (hp : ∀ n ∈ lowBlankCodes, p (Char.ofNat n) = false)
    (h : isBlank c = true) (hlow : c.toNat < 128) : p c = false := by
  have hmem : c.toNat ∈ lowBlankCodes := by
    simp only [isBlank, Bool.or_eq_true, Bool.and_eq_true, decide_eq_true_eq] at h
    simp only [lowBlankCodes, List.mem_cons, List.not_mem_nil, or_false]
    omega
  rw [← Char.ofNat_toNat c]
  exact hp _ hmem

theorem not_inRanges_letterRanges (h : isBlank c = true) : inRanges letterRanges c = false :=
  AreDisjoint.not_inRanges (s := blankRanges) (by decide +kernel) (inRanges_blankRanges h)

theorem not_isWord_of_isBlank (h : isBlank c = true) : isWord c = false := by
  have hmarks : AreDisjoint blankRanges markRanges := by decide +kernel
  unfold isWord
  split
  · next hlow => exact of_isBlank_of_low (p := fun d => d.isAlphanum || d = '_') (by decide) h hlow
  · rw [not_inRanges_letterRanges h, hmarks.not_inRanges (inRanges_blankRanges h)]
    rfl

theorem not_isAlphanumeric_of_isBlank (h : isBlank c = true) : isAlphanumeric c = false := by
  have hnumbers : AreDisjoint blankRanges otherNumberRanges := by decide +kernel
  unfold isAlphanumeric
  split
  · next hlow => exact of_isBlank_of_low (p := Char.isAlphanum) (by decide) h hlow
  · rw [not_inRanges_letterRanges h, hnumbers.not_inRanges (inRanges_blankRanges h)]
    rfl

/-! ## The words of a text -/

theorem wordsAfter_append (current : List Char) {word : List Char}
    (hword : ∀ c ∈ word, isBlank c = false) (rest : List Char) :
    wordsAfter current (word ++ rest) = wordsAfter (current ++ word) rest := by
  induction word generalizing current with
  | nil => rw [List.nil_append, List.append_nil]
  | cons c word ih =>
    rw [List.cons_append, wordsAfter, if_neg (by simp [hword c (List.mem_cons_self ..)]),
      ih _ fun d hd => hword d (List.mem_cons_of_mem _ hd), List.append_assoc,
      List.singleton_append]

theorem splitWords_of_blanks {gap : List Char} (hgap : ∀ c ∈ gap, isBlank c = true)
    (rest : List Char) : splitWords (gap ++ rest) = splitWords rest := by
  induction gap with
  | nil => rfl
  | cons c gap ih =>
    rw [List.cons_append, splitWords, wordsAfter, if_pos (hgap c (List.mem_cons_self ..)),
      if_pos List.isEmpty_nil]
    exact ih fun d hd => hgap d (List.mem_cons_of_mem _ hd)

theorem splitWords_word {word : List Char} (hword : ∀ c ∈ word, isBlank c = false)
    (hne : word ≠ []) : splitWords word = [word] := by
  have h := wordsAfter_append [] hword []
  rw [List.append_nil, List.nil_append] at h
  rw [splitWords, h, wordsAfter, if_neg (by simpa using hne)]

/-- The first word of a text, up to the blanks behind it. -/
theorem splitWords_cons {word gap : List Char} (hword : ∀ c ∈ word, isBlank c = false)
    (hne : word ≠ []) (hgap : ∀ c ∈ gap, isBlank c = true) (hgapne : gap ≠ []) (rest : List Char) :
    splitWords (word ++ (gap ++ rest)) = word :: splitWords rest := by
  obtain ⟨c, gap, rfl⟩ := List.exists_cons_of_ne_nil hgapne
  rw [splitWords, wordsAfter_append [] hword, List.nil_append, List.cons_append, wordsAfter,
    if_pos (hgap c (List.mem_cons_self ..)), if_neg (by simpa using hne)]
  exact congrArg (word :: ·)
    (splitWords_of_blanks (fun d hd => hgap d (List.mem_cons_of_mem _ hd)) rest)

theorem wordsAfter_append_blanks {gap : List Char} (hgap : ∀ c ∈ gap, isBlank c = true)
    (current s : List Char) : wordsAfter current (s ++ gap) = wordsAfter current s := by
  induction s generalizing current with
  | nil =>
    cases gap with
    | nil => rfl
    | cons c gap =>
      have hrest : wordsAfter [] gap = [] := by
        have h := splitWords_of_blanks (fun d hd => hgap d (List.mem_cons_of_mem _ hd)) []
        rwa [List.append_nil] at h
      rw [List.nil_append, wordsAfter.eq_def current (c :: gap)]
      simp only [hgap c (List.mem_cons_self ..), if_true, hrest]
      rfl
  | cons c s ih =>
    rw [List.cons_append, wordsAfter, wordsAfter]
    simp only [ih]

/-- Blanks around a text make no difference to its words. -/
theorem splitWords_trim (s : List Char) : splitWords (trim s) = splitWords s := by
  obtain ⟨before, after, hs, hbefore, hafter⟩ := exists_trim s
  conv_rhs => rw [hs, splitWords_of_blanks hbefore, splitWords, wordsAfter_append_blanks hafter]
  rfl

/-- The first word of a text, in front of a blank or the end. -/
theorem splitWords_append {word : List Char} (hword : ∀ c ∈ word, isBlank c = false)
    (hne : word ≠ []) {rest : List Char} (hrest : rest.head?.all isBlank = true) :
    splitWords (word ++ rest) = word :: splitWords rest := by
  cases rest with
  | nil => rw [List.append_nil, splitWords_word hword hne]; rfl
  | cons c rest =>
    have hgap : ∀ d ∈ [c], isBlank d = true := List.forall_mem_singleton.mpr hrest
    have hcons := splitWords_cons hword hne hgap (List.cons_ne_nil _ _) rest
    rw [List.singleton_append] at hcons
    rw [hcons, ← splitWords_of_blanks hgap rest, List.singleton_append]

theorem exists_word (s : List Char) : ∃ word rest, s = word ++ rest ∧
    (∀ c ∈ word, isBlank c = false) ∧ rest.head?.all isBlank = true := by
  refine ⟨s.takeWhile (!isBlank ·), s.dropWhile (!isBlank ·),
    List.takeWhile_append_dropWhile.symm, fun c hc => ?_, ?_⟩
  · simpa using List.mem_takeWhile_imp hc
  · have hhead := List.head?_dropWhile_not (!isBlank ·) s
    cases h : (s.dropWhile (!isBlank ·)).head? with
    | none => rfl
    | some c =>
      rw [h] at hhead
      simpa using hhead

theorem splitWords_eq_nil {s : List Char} : splitWords s = [] ↔ ∀ c ∈ s, isBlank c = true := by
  constructor
  · intro h
    induction s with
    | nil => simp
    | cons c s ih =>
      cases hc : isBlank c with
      | true =>
        have hgap : ∀ d ∈ [c], isBlank d = true := List.forall_mem_singleton.mpr hc
        have hrest := splitWords_of_blanks hgap s
        rw [List.singleton_append, h] at hrest
        exact List.forall_mem_cons.mpr ⟨hc, ih hrest.symm⟩
      | false =>
        obtain ⟨word, rest, hs, hword, hrest⟩ := exists_word s
        have hall : ∀ d ∈ c :: word, isBlank d = false := List.forall_mem_cons.mpr ⟨hc, hword⟩
        rw [hs, ← List.cons_append, splitWords_append hall (List.cons_ne_nil _ _) hrest] at h
        cases h
  · intro h
    have := splitWords_of_blanks h []
    rwa [List.append_nil] at this

end SnippetRunner.Text
