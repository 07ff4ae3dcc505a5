import SnippetRunner.Proofs.Script.Written

/-
  Lists of names with comments in them. The list of a declaration is cut at its commas and then at
  its blanks, and what a comment is made of is taken for a part of it. `Names.ofList_text_iff` says
  which comments do no harm: those behind a name and a blank, without a comma that more than blanks
  and commas follow.
-/
namespace SnippetRunner.Script

open SnippetRunner.Text SnippetRunner.Source

/-! ## Reading a list -/

namespace Annotated

theorem ofList_append_cons (s t : List Char) :
    Specifier.ofList (s ++ ',' :: t) = Specifier.ofList s ++ Specifier.ofList t := by
  have hsplit : splitBetween (· = ',') (s ++ ',' :: t) =
      splitBetween (· = ',') s ++ splitBetween (· = ',') t :=
    splitBetween_append_cons (p := (· = ',')) (by simp) s t
  rw [Specifier.ofList, hsplit, List.map_append, List.filter_append, List.map_append]
  rfl

/-- A part between commas is read by its words. -/
theorem ofList_of_commaless {s : List Char} (h : ',' ∉ s) :
    Specifier.ofList s =
      if splitWords s = [] then [] else [Specifier.ofWords (splitWords s)] := by
  have hcomma : ∀ c ∈ s, decide (c = ',') = false :=
    fun c hc => decide_eq_false fun e => h (e ▸ hc)
  rw [Specifier.ofList, splitBetween_of_unmarked hcomma, List.map_singleton]
  by_cases hwords : splitWords s = []
  · have htrim : trim s = [] := by
      rw [trim, trimStart, List.dropWhile_eq_nil_iff.mpr (splitWords_eq_nil.mp hwords)]
      rfl
    rw [if_pos hwords, htrim]
    rfl
  · have htrim : trim s ≠ [] := by
      intro hnil
      rw [← splitWords_trim, hnil] at hwords
      exact hwords rfl
    rw [if_neg hwords, List.filter_cons_of_pos (by simpa using htrim), List.map_cons,
      Function.comp_apply, splitWords_trim]
    rfl

/-- A list is read up to its first comma, and behind it. -/
theorem ofList_cut {s t : List Char} (h : ',' ∉ s) (ht : t.head?.all (· = ',') = true) :
    Specifier.ofList (s ++ t) =
      (if splitWords s = [] then [] else [Specifier.ofWords (splitWords s)]) ++
        Specifier.ofList t.tail := by
  cases t with
  | nil =>
    rw [List.append_nil, ofList_of_commaless h, List.tail_nil]
    exact (List.append_nil _).symm
  | cons c t =>
    obtain rfl : c = ',' := by simpa using ht
    rw [ofList_append_cons, ofList_of_commaless h, List.tail_cons]

/-- A list up to its first comma. -/
theorem comma_cut (s : List Char) : ',' ∉ s.takeWhile (· ≠ ',') ∧
    (s.dropWhile (· ≠ ',')).head?.all (· = ',') = true := by
  refine ⟨fun hmem => ?_, ?_⟩
  · simpa using List.mem_takeWhile_imp hmem
  · have hhead := List.head?_dropWhile_not (· ≠ ',') s
    cases h : (s.dropWhile (· ≠ ',')).head? with
    | none => rfl
    | some c =>
      rw [h] at hhead
      simpa using hhead

/-- A text of blanks and commas. -/
def IsVacant (s : List Char) : Prop := ∀ c ∈ s, isBlank c = true ∨ c = ','

theorem isVacant_append {s t : List Char} : IsVacant (s ++ t) ↔ IsVacant s ∧ IsVacant t :=
  List.forall_mem_append

theorem isVacant_tail {s : List Char} (hs : s.head?.all (· = ',') = true) :
    IsVacant s.tail ↔ IsVacant s := by
  cases s with
  | nil => rfl
  | cons c s =>
    obtain rfl : c = ',' := by simpa using hs
    rw [IsVacant, IsVacant, List.tail_cons, List.forall_mem_cons]
    exact (and_iff_right (Or.inr rfl)).symm

theorem ofList_eq_nil_iff {s : List Char} : Specifier.ofList s = [] ↔ IsVacant s := by
  induction hn : s.length using Nat.strongRecOn generalizing s with
  | _ n ih =>
    obtain ⟨ha, hb⟩ := comma_cut s
    have hs : s.takeWhile (· ≠ ',') ++ s.dropWhile (· ≠ ',') = s :=
      List.takeWhile_append_dropWhile
    generalize s.takeWhile (· ≠ ',') = a at *
    generalize s.dropWhile (· ≠ ',') = b at *
    subst hs
    have hvacant : IsVacant a ↔ splitWords a = [] := by
      rw [splitWords_eq_nil]
      exact forall₂_congr fun c hc => or_iff_left fun e => ha (e ▸ hc)
    have hrest : Specifier.ofList b.tail = [] ↔ IsVacant b := by
      rw [← isVacant_tail hb]
      cases b with
      | nil => exact iff_of_true rfl (by simp [IsVacant])
      | cons c b => exact ih b.length (by simp at hn; omega) rfl
    rw [ofList_cut ha hb, List.append_eq_nil_iff, hrest, isVacant_append, hvacant]
    refine and_congr_left fun _ => ?_
    split <;> simp_all

/-! ## Lists with comments -/

/-- The name of a binding or of an export. -/
structure Word where
  text : List Char
  nonempty : text ≠ []
  parts : ∀ c ∈ text, isIdentifierPart c = true

/-- What stands between the marks of a comment. A line comment has the line end behind it. -/
inductive Comment where
  | line (inner : List Char) (ends : '\n' ∉ inner)
  | block (inner : List Char) (ends : ¬['*', '/'] <:+: inner)

def Comment.text : Comment → List Char
  | line inner _ => "//".toList ++ inner ++ ['\n']
  | block inner _ => "/*".toList ++ inner ++ "*/".toList

/-- Blanks, and comments between them. -/
inductive Filler where
  | blanks (blanks : Written.Blanks)
  | comment (before : Written.Blanks) (comment : Comment) (rest : Filler)

def Filler.text : Filler → List Char
  | blanks b => b.text
  | comment before c rest => before.text ++ c.text ++ rest.text

/-- A name, or `name as other`. -/
inductive Item where
  | plain (name : Word)
  | renamed (source : Word) (beforeAs afterAs : Written.Gap) (localName : Word)

namespace Item

def text : Item → List Char
  | plain name => name.text
  | renamed source beforeAs afterAs localName =>
    source.text ++ beforeAs.text ++ "as".toList ++ afterAs.text ++ localName.text

def specifier : Item → Specifier
  | plain name => ⟨name.text, name.text⟩
  | renamed source _ _ localName => ⟨source.text, localName.text⟩

end Item

/-- What stands between two commas. -/
inductive Slot where
  | vacant (filler : Filler)
  | entry (before : Filler) (item : Item) (after : Filler)

namespace Slot

def text : Slot → List Char
  | vacant filler => filler.text
  | entry before item after => before.text ++ item.text ++ after.text

/-- The pair of names of a slot, if it has one. -/
def pairs : Slot → List Specifier
  | vacant _ => []
  | entry _ item _ => [item.specifier]

end Slot

/-- A list of names, with comments before and behind them. -/
inductive Names where
  | last (slot : Slot)
  | more (slot : Slot) (rest : Names)

namespace Names

def text : Names → List Char
  | last slot => slot.text
  | more slot rest => slot.text ++ ',' :: rest.text

def slots : Names → List Slot
  | last slot => [slot]
  | more slot rest => slot :: rest.slots

/-- The pairs of source name and local name that the list stands for. -/
def pairs (named : Names) : List Specifier := named.slots.flatMap Slot.pairs

end Names

/-! ## Comments as blanks -/

/-- Blanks in place of a text, with its line ends. -/
def blankOut (s : List Char) : List Char := s.map fun c => if c = '\n' then c else ' '

theorem isBlank_of_mem_blankOut {s : List Char} : ∀ c ∈ blankOut s, isBlank c = true := by
  intro c hc
  obtain ⟨d, -, rfl⟩ := List.mem_map.mp hc
  by_cases hd : d = '\n'
  · rw [if_pos hd, hd]
    decide
  · rw [if_neg hd]
    decide

theorem newlines_blankOut (s : List Char) : newlines (blankOut s) = newlines s := by
  have hline (c : Char) : (if c = '\n' then c else ' ') = '\n' ↔ c = '\n' := by
    by_cases hc : c = '\n' <;> simp [hc]
  simp only [newlines, blankOut, List.count, List.countP_map]
  exact List.countP_congr fun c _ => by simp [hline]

namespace Filler

def blankText : Filler → List Char
  | blanks b => b.text
  | comment before c rest => before.text ++ blankOut c.text ++ rest.blankText

theorem isBlank_blankText (f : Filler) : ∀ c ∈ f.blankText, isBlank c = true := by
  induction f with
  | blanks b => exact b.blank
  | comment before c rest ih =>
    simp only [blankText, List.forall_mem_append]
    exact ⟨⟨before.blank, isBlank_of_mem_blankOut⟩, ih⟩

theorem newlines_blankText (f : Filler) : newlines f.blankText = newlines f.text := by
  induction f with
  | blanks b => rfl
  | comment before c rest ih =>
    simp only [blankText, text, newlines_append, newlines_blankOut, ih]

/-- The filler with blanks in place of its comments. -/
def blanked (f : Filler) : Filler := blanks ⟨f.blankText, f.isBlank_blankText⟩

end Filler

def Slot.blanked : Slot → Slot
  | vacant filler => vacant filler.blanked
  | entry before item after => entry before.blanked item after.blanked

/-- The list with blanks in place of its comments. -/
def Names.blanked : Names → Names
  | last slot => last slot.blanked
  | more slot rest => more slot.blanked rest.blanked

theorem Slot.newlines_blanked (slot : Slot) : newlines slot.blanked.text = newlines slot.text := by
  cases slot with
  | vacant filler => exact filler.newlines_blankText
  | entry before item after =>
    simp only [blanked, text, Filler.blanked, Filler.text, newlines_append,
      Filler.newlines_blankText]

theorem Names.newlines_blanked (named : Names) :
    newlines named.blanked.text = newlines named.text := by
  induction named with
  | last slot => exact slot.newlines_blanked
  | more slot rest ih =>
    rw [blanked, text, text, newlines_append_cons (by decide), newlines_append_cons (by decide),
      slot.newlines_blanked, ih]

theorem Slot.pairs_blanked (slot : Slot) : slot.blanked.pairs = slot.pairs := by
  cases slot <;> rfl

/-! ## Harmless comments -/

namespace Filler

/-- No comment, only blanks. -/
def IsBlank : Filler → Prop
  | blanks _ => True
  | comment .. => False

/-- A comment right at the beginning. -/
def OpensComment : Filler → Prop
  | blanks _ => False
  | comment before _ _ => before.text = []

end Filler

/-- The comments of a slot do not come into the names that are read from it. -/
def Slot.Harmless : Slot → Prop
  | vacant filler => filler.IsBlank
  | entry before _ after =>
    before.IsBlank ∧ ¬after.OpensComment ∧ IsVacant (after.text.dropWhile (· ≠ ','))

/-- A filler is blank, or its blanks end in front of a slash. -/
theorem Filler.cases (f : Filler) :
    (f.IsBlank ∧ ¬f.OpensComment ∧ ∀ c ∈ f.text, isBlank c = true) ∨
      (¬f.IsBlank ∧ ∃ gap rest, f.text = gap ++ '/' :: rest ∧ (∀ c ∈ gap, isBlank c = true) ∧
        (f.OpensComment ↔ gap = [])) := by
  cases f with
  | blanks b => exact Or.inl ⟨trivial, id, b.blank⟩
  | comment before c rest =>
    refine Or.inr ⟨id, before.text, ?_⟩
    cases c with
    | line inner _ => exact ⟨'/' :: inner ++ ['\n'] ++ rest.text, by simp [text, Comment.text],
        before.blank, Iff.rfl⟩
    | block inner _ => exact ⟨'*' :: inner ++ ['*', '/'] ++ rest.text,
        by simp [text, Comment.text], before.blank, Iff.rfl⟩

theorem Word.not_isBlank (w : Word) : ∀ c ∈ w.text, isBlank c = false :=
  fun c hc => not_isBlank_of_isIdentifierPart (w.parts c hc)

/-! ## The words of a slot -/

theorem source_ofWords (word : List Char) (words : List (List Char)) :
    (Specifier.ofWords (word :: words)).source = word := by
  match words with
  | [] => rfl
  | [_] => rfl
  | _ :: _ :: _ => rfl

theorem ofWords_cons {word : List Char} {words : List (List Char)}
    (h : words.head? ≠ some "as".toList) : Specifier.ofWords (word :: words) = ⟨word, word⟩ := by
  match words with
  | [] => rfl
  | [_] => rfl
  | as :: _ :: _ =>
    have has : as ≠ ['a', 's'] := fun e => h (congrArg some e)
    rw [Specifier.ofWords, if_neg has]

namespace Item

/-- The words of an item whose last name runs on with `more`. -/
def words (more : List Char) : Item → List (List Char)
  | plain name => [name.text ++ more]
  | renamed source _ _ localName => [source.text, "as".toList, localName.text ++ more]

theorem splitWords_text (item : Item) {more rest : List Char}
    (hmore : ∀ c ∈ more, isBlank c = false) (hrest : rest.head?.all isBlank = true) :
    splitWords (item.text ++ (more ++ rest)) = item.words more ++ splitWords rest := by
  have hlast (name : Word) :
      splitWords (name.text ++ (more ++ rest)) = (name.text ++ more) :: splitWords rest := by
    rw [← List.append_assoc]
    exact splitWords_append (List.forall_mem_append.mpr ⟨name.not_isBlank, hmore⟩)
      (List.append_ne_nil_of_left_ne_nil name.nonempty _) hrest
  cases item with
  | plain name => exact hlast name
  | renamed source beforeAs afterAs localName =>
    simp only [text, List.append_assoc]
    rw [splitWords_cons source.not_isBlank source.nonempty beforeAs.blank beforeAs.nonempty,
      splitWords_cons Written.not_isBlank_as (by decide) afterAs.blank afterAs.nonempty, hlast]
    rfl

/-- The names are read as they are exactly if nothing runs on from them. -/
theorem ofWords_words (item : Item) {more : List Char} {rest : List (List Char)}
    (hrest : more = [] → rest.head? ≠ some "as".toList) :
    Specifier.ofWords (item.words more ++ rest) = item.specifier ↔ more = [] := by
  cases item with
  | plain name =>
    constructor
    · intro h
      have hsource := (source_ofWords (name.text ++ more) rest).symm.trans
        (congrArg Specifier.source h)
      exact List.append_right_eq_self.mp hsource
    · rintro rfl
      rw [words, List.append_nil, List.singleton_append, ofWords_cons (hrest rfl)]
      rfl
  | renamed source beforeAs afterAs localName =>
    have hread :
        Specifier.ofWords (words more (renamed source beforeAs afterAs localName) ++ rest) =
          ⟨source.text, localName.text ++ more⟩ := rfl
    rw [hread, specifier, Specifier.mk.injEq, and_iff_right rfl]
    exact List.append_right_eq_self

theorem of_mem_text {item : Item} {c : Char} (hc : c ∈ item.text) :
    isBlank c = true ∨ isIdentifierPart c = true := by
  cases item with
  | plain name => exact .inr (name.parts c hc)
  | renamed source beforeAs afterAs localName =>
    simp only [text, List.mem_append] at hc
    rcases hc with (((hc | hc) | hc) | hc) | hc
    · exact .inr (source.parts c hc)
    · exact .inl (beforeAs.blank c hc)
    · have has : ∀ d ∈ "as".toList, isIdentifierPart d = true := List.all_eq_true.mp (by decide)
      exact .inr (has c hc)
    · exact .inl (afterAs.blank c hc)
    · exact .inr (localName.parts c hc)

theorem commaless (item : Item) : ',' ∉ item.text := by
  intro hc
  rcases of_mem_text hc with h | h <;> exact absurd h (by decide)

theorem braceless (item : Item) : '}' ∉ item.text := by
  intro hc
  rcases of_mem_text hc with h | h <;> exact absurd h (by decide)

theorem head?_source_ne (item : Item) : item.specifier.source.head? ≠ some '/' := by
  have hword (w : Word) : w.text.head? ≠ some '/' :=
    fun h => absurd (w.parts _ (List.mem_of_head? h)) (by decide)
  cases item with
  | plain name => exact hword name
  | renamed source _ _ _ => exact hword source

theorem exists_part (item : Item) : ∃ c ∈ item.text, isBlank c = false ∧ c ≠ ',' := by
  obtain ⟨w, hw⟩ : ∃ w : Word, ∀ c ∈ w.text, c ∈ item.text := by
    cases item with
    | plain name => exact ⟨name, fun _ hc => hc⟩
    | renamed source _ _ _ => exact ⟨source, fun c hc => by simp [text, hc]⟩
  obtain ⟨c, hc⟩ := List.exists_mem_of_ne_nil w.text w.nonempty
  exact ⟨c, hw c hc, w.not_isBlank c hc, fun e => item.commaless (e ▸ hw c hc)⟩

theorem words_ne_nil (item : Item) (more : List Char) : item.words more ≠ [] := by
  cases item <;> exact List.cons_ne_nil _ _

end Item

/-! ## Reading a slot -/

/-- The first word of a text that begins with a slash. -/
theorem splitWords_slash (s : List Char) : ∃ word words, splitWords ('/' :: s) = word :: words ∧
    word.head? = some '/' := by
  obtain ⟨word, rest, rfl, hword, hrest⟩ := exists_word s
  have hslash : ∀ c ∈ '/' :: word, isBlank c = false :=
    List.forall_mem_cons.mpr ⟨by decide, hword⟩
  exact ⟨'/' :: word, splitWords rest, splitWords_append hslash (List.cons_ne_nil _ _) hrest, rfl⟩

/-- The first name of a text whose blanks end in front of a slash. -/
theorem head?_ofList_slash {gap : List Char} (hgap : ∀ c ∈ gap, isBlank c = true)
    (rest : List Char) : ∃ name names, Specifier.ofList (gap ++ '/' :: rest) = name :: names ∧
      name.source.head? = some '/' := by
  obtain ⟨ha, hb⟩ := comma_cut rest
  obtain ⟨word, words, hwords, hhead⟩ := splitWords_slash (rest.takeWhile (· ≠ ','))
  have hcut : gap ++ '/' :: rest =
      (gap ++ '/' :: rest.takeWhile (· ≠ ',')) ++ rest.dropWhile (· ≠ ',') := by
    rw [List.append_assoc, List.cons_append, List.takeWhile_append_dropWhile]
  have hcomma : ',' ∉ gap ++ '/' :: rest.takeWhile (· ≠ ',') := by
    simp only [List.mem_append, List.mem_cons, not_or]
    exact ⟨fun h => absurd (hgap _ h) (by decide), by decide, ha⟩
  rw [hcut, ofList_cut hcomma hb, splitWords_of_blanks hgap, hwords, if_neg (List.cons_ne_nil _ _)]
  exact ⟨_, _, rfl, by rw [source_ofWords, hhead]⟩

namespace Filler

/-- A filler up to its first comma, behind a name: `more` runs on from the name, and then no word
`as` follows. -/
theorem exists_behind (f : Filler) : ∃ more rest, f.text.takeWhile (· ≠ ',') = more ++ rest ∧
    (∀ c ∈ more, isBlank c = false) ∧ rest.head?.all isBlank = true ∧
    (more = [] ↔ ¬f.OpensComment) ∧ (more = [] → (splitWords rest).head? ≠ some "as".toList) := by
  obtain ⟨more, rest, hsplit, hmore, hrest⟩ := exists_word (f.text.takeWhile (· ≠ ','))
  refine ⟨more, rest, hsplit, hmore, hrest, ?_⟩
  rcases f.cases with ⟨-, hopens, hblank⟩ | ⟨-, gap, tail, htext, hgap, hopens⟩
  · -- all of it is blank
    have hall : ∀ c ∈ more ++ rest, isBlank c = true :=
      fun c hc => hblank c (List.takeWhile_subset _ (hsplit ▸ hc))
    have hnil : more = [] := by
      refine List.eq_nil_iff_forall_not_mem.mpr fun c hc => ?_
      have hboth := hall c (List.mem_append_left _ hc)
      rw [hmore c hc] at hboth
      cases hboth
    have hwords : splitWords rest = [] :=
      splitWords_eq_nil.mpr fun c hc => hall c (List.mem_append_right _ hc)
    exact ⟨iff_of_true hnil hopens, fun _ => by simp [hwords]⟩
  · have hcommaless : ∀ c ∈ gap, decide (c ≠ ',') = true := by
      intro c hc
      refine decide_eq_true ?_
      rintro rfl
      exact absurd (hgap _ hc) (by decide)
    rw [htext, List.takeWhile_append_of_pos hcommaless, List.takeWhile_cons_of_pos (by decide)]
      at hsplit
    rw [hopens]
    refine ⟨⟨?_, fun hne => ?_⟩, ?_⟩
    · rintro rfl rfl
      rw [List.nil_append, List.nil_append] at hsplit
      rw [← hsplit] at hrest
      exact absurd hrest (by simp [show isBlank '/' = false by decide])
    · obtain ⟨c, gap, rfl⟩ := List.exists_cons_of_ne_nil hne
      cases more with
      | nil => rfl
      | cons d more =>
        obtain rfl := (List.cons.inj hsplit).1
        have hboth := hmore c (List.mem_cons_self ..)
        rw [hgap c (List.mem_cons_self ..)] at hboth
        cases hboth
    · rintro rfl
      obtain ⟨word, words, hwords, hhead⟩ := splitWords_slash (tail.takeWhile (· ≠ ','))
      rw [List.nil_append] at hsplit
      rw [← hsplit, splitWords_of_blanks hgap, hwords]
      rintro has
      obtain rfl := Option.some.inj has
      cases hhead

end Filler

namespace Slot

/-- The names of a slot whose filler in front of them is blank. -/
theorem ofList_entry {before : List Char} (hbefore : ∀ c ∈ before, isBlank c = true) (item : Item)
    (after : Filler) :
    Specifier.ofList (before ++ item.text ++ after.text) = [item.specifier] ↔
      ¬after.OpensComment ∧ IsVacant (after.text.dropWhile (· ≠ ',')) := by
  obtain ⟨ha, hb⟩ := comma_cut after.text
  obtain ⟨more, rest, hsplit, hmore, hrest, hopens, has⟩ := after.exists_behind
  have hcut : before ++ item.text ++ after.text = (before ++ (item.text ++ (more ++ rest))) ++
      after.text.dropWhile (· ≠ ',') := by
    conv_lhs => rw [← List.takeWhile_append_dropWhile (p := (· ≠ ',')) (l := after.text), hsplit]
    simp only [List.append_assoc]
  have hcomma : ',' ∉ before ++ (item.text ++ (more ++ rest)) := by
    rw [hsplit] at ha
    simp only [List.mem_append, not_or] at ha ⊢
    exact ⟨fun h => absurd (hbefore _ h) (by decide), item.commaless, ha⟩
  have hwords : splitWords (before ++ (item.text ++ (more ++ rest))) =
      item.words more ++ splitWords rest := by
    rw [splitWords_of_blanks hbefore, item.splitWords_text hmore hrest]
  rw [hcut, ofList_cut hcomma hb, hwords,
    if_neg (List.append_ne_nil_of_left_ne_nil (item.words_ne_nil more) _), List.singleton_append,
    List.cons.injEq, ofList_eq_nil_iff, isVacant_tail hb, item.ofWords_words has, hopens]

theorem ofList_text_iff (slot : Slot) :
    Specifier.ofList slot.text = slot.pairs ↔ slot.Harmless := by
  cases slot with
  | vacant filler =>
    rw [text, pairs, ofList_eq_nil_iff, Harmless]
    rcases filler.cases with ⟨hblank, -, hblanks⟩ | ⟨hblank, gap, rest, htext, -, -⟩
    · exact iff_of_true (fun c hc => Or.inl (hblanks c hc)) hblank
    · refine iff_of_false (fun h => ?_) hblank
      have hslash := h '/' (by rw [htext]; simp)
      exact absurd hslash (by decide)
  | entry before item after =>
    rcases before.cases with ⟨hblank, -, hblanks⟩ | ⟨hblank, gap, rest, htext, hgap, -⟩
    · rw [text, pairs, ofList_entry hblanks item after, Harmless]
      exact (and_iff_right hblank).symm
    · refine iff_of_false (fun h => ?_) fun h => hblank h.1
      obtain ⟨name, names, hnames, hhead⟩ :=
        head?_ofList_slash hgap (rest ++ (item.text ++ after.text))
      have htext : text (entry before item after) =
          gap ++ '/' :: (rest ++ (item.text ++ after.text)) := by
        simp only [text, htext, List.append_assoc, List.cons_append]
      rw [htext, hnames, pairs] at h
      obtain rfl := (List.cons.inj h).1
      exact item.head?_source_ne hhead

theorem length_pairs_le (slot : Slot) :
    slot.pairs.length ≤ (Specifier.ofList slot.text).length := by
  cases slot with
  | vacant filler => exact Nat.zero_le _
  | entry before item after =>
    refine List.length_pos_iff.mpr fun hnil => ?_
    have hvacant := ofList_eq_nil_iff.mp hnil
    obtain ⟨c, hc, hblank, hcomma⟩ := item.exists_part
    rcases hvacant c (by simp [text, hc]) with h | h
    · rw [hblank] at h
      cases h
    · exact hcomma h

theorem harmless_blanked (slot : Slot) : slot.blanked.Harmless := by
  cases slot with
  | vacant filler => trivial
  | entry before item after =>
    refine ⟨trivial, id, fun c hc => .inl ?_⟩
    exact after.isBlank_blankText c ((List.dropWhile_suffix _).mem hc)

theorem braceless_blanked (slot : Slot) : '}' ∉ slot.blanked.text := by
  have hblank {s : List Char} (hs : ∀ c ∈ s, isBlank c = true) : '}' ∉ s :=
    fun h => absurd (hs _ h) (by decide)
  cases slot with
  | vacant filler => exact hblank filler.isBlank_blankText
  | entry before item after =>
    simp only [blanked, text, Filler.blanked, Filler.text, List.mem_append, not_or]
    exact ⟨⟨hblank before.isBlank_blankText, item.braceless⟩, hblank after.isBlank_blankText⟩

end Slot

/-! ## Reading a list with comments -/

namespace Names

theorem ofList_more (slot : Slot) (rest : Names) : Specifier.ofList (more slot rest).text =
    Specifier.ofList slot.text ++ Specifier.ofList rest.text :=
  ofList_append_cons slot.text rest.text

theorem pairs_last (slot : Slot) : (last slot).pairs = slot.pairs := by
  rw [pairs, slots, List.flatMap_singleton]

theorem pairs_more (slot : Slot) (rest : Names) :
    (more slot rest).pairs = slot.pairs ++ rest.pairs := by
  rw [pairs, slots, List.flatMap_cons, pairs]

/-- No name of a list is lost. -/
theorem length_pairs_le (named : Names) :
    named.pairs.length ≤ (Specifier.ofList named.text).length := by
  induction named with
  | last slot =>
    rw [pairs_last]
    exact slot.length_pairs_le
  | more slot rest ih =>
    rw [pairs_more, ofList_more, List.length_append, List.length_append]
    exact Nat.add_le_add slot.length_pairs_le ih

/-- Every comment is harmless. -/
def Harmless (named : Names) : Prop := ∀ slot ∈ named.slots, slot.Harmless

/-- A list is read as the pairs that it stands for exactly if its comments are harmless. -/
theorem ofList_text_iff (named : Names) :
    Specifier.ofList named.text = named.pairs ↔ named.Harmless := by
  induction named with
  | last slot =>
    rw [pairs_last, Harmless, slots, List.forall_mem_singleton]
    exact slot.ofList_text_iff
  | more slot rest ih =>
    have hslot := slot.length_pairs_le
    have hrest := rest.length_pairs_le
    rw [Harmless, slots, List.forall_mem_cons, ← slot.ofList_text_iff, ← Harmless, ← ih, pairs_more,
      ofList_more]
    constructor
    · intro h
      -- no slot has fewer names than it should, so none has more
      have hlength := congrArg List.length h
      rw [List.length_append, List.length_append] at hlength
      exact List.append_inj h (by omega)
    · rintro ⟨hslot, hrest⟩
      rw [hslot, hrest]

theorem pairs_blanked (named : Names) : named.blanked.pairs = named.pairs := by
  induction named with
  | last slot => rw [blanked, pairs_last, pairs_last, slot.pairs_blanked]
  | more slot rest ih => rw [blanked, pairs_more, pairs_more, slot.pairs_blanked, ih]

/-- Blanks do no harm. -/
theorem harmless_blanked (named : Names) : named.blanked.Harmless := by
  induction named with
  | last slot => exact List.forall_mem_singleton.mpr slot.harmless_blanked
  | more slot rest ih => exact List.forall_mem_cons.mpr ⟨slot.harmless_blanked, ih⟩

/-- A brace stands within a comment only. -/
theorem braceless_blanked (named : Names) : '}' ∉ named.blanked.text := by
  induction named with
  | last slot => exact slot.braceless_blanked
  | more slot rest ih => simp [blanked, text, slot.braceless_blanked, ih]

end Names

end Annotated

end SnippetRunner.Script
