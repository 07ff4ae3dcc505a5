import SnippetRunner.Script.Transform
import SnippetRunner.Proofs.Script.Declarations
import SnippetRunner.Proofs.Script.LastStatement
import SnippetRunner.Proofs.Script.LineAttribution

/-
  How many lines a prepared script has. Each replaced declaration is followed by as many
  line ends as it contained, so the text gains what the code for a declaration adds. That is
  nothing for every form but one: an exported `async function` keeps the blanks between its two
  words, and a line end among them counts twice. `newlines_prepare` says that this is the only
  way in which a script comes to have other lines, and that the captures and the returned
  expression have line numbers of the prepared text.
-/
namespace SnippetRunner.Script

open SnippetRunner.Text SnippetRunner.Source

/-! ## Replacing the declarations of one form -/

/-- How many of the next characters belong to the last declaration found. -/
def Ahead.skipped : Ahead → Nat
  | nothing => 0
  | kept count => count
  | replaced count => count

/-- How many of the next characters are left out. -/
def Ahead.dropped : Ahead → Nat
  | nothing => 0
  | kept _ => 0
  | replaced count => count

/-- A declaration begins at the head of `text` whose code has a line end. -/
def gainsLine (form : Form) (before text : List Char) : Bool :=
  wordBegins before && (form.read? text).any fun read => newlines read.1.render ≠ 0

/-- No declaration that gains a line begins at one of the next `n` characters. -/
def Settled (form : Form) (before : List Char) (n : Nat) (text : List Char) : Prop :=
  ∀ i, i < n → i < text.length →
    gainsLine form ((text.take i).reverse ++ before) (text.drop i) = false

theorem Settled.head {form : Form} {before text : List Char} {n : Nat} {c : Char}
    (h : Settled form before (n + 1) (c :: text)) : gainsLine form before (c :: text) = false :=
  h 0 (Nat.zero_lt_succ n) (by simp)

theorem Settled.tail {form : Form} {before text : List Char} {n : Nat} {c : Char}
    (h : Settled form before (n + 1) (c :: text)) : Settled form (c :: before) n text := by
  intro i hi hlt
  have := h (i + 1) (by omega) (by simpa using hlt)
  rw [List.take_succ_cons, List.drop_succ_cons, List.reverse_cons, List.append_assoc] at this
  exact this

theorem settled_zero (form : Form) (before text : List Char) : Settled form before 0 text :=
  fun _ hi => absurd hi (Nat.not_lt_zero _)

theorem settled_cons {form : Form} {before text : List Char} {n : Nat} {c : Char}
    (h : gainsLine form before (c :: text) = false) (ht : Settled form (c :: before) n text) :
    Settled form before (n + 1) (c :: text) := by
  intro i hi hlt
  cases i with
  | zero => exact h
  | succ i =>
    have := ht i (by omega) (by simpa using hlt)
    rw [List.take_succ_cons, List.drop_succ_cons, List.reverse_cons, List.append_assoc]
    exact this

/-- Within a declaration that was found begins none that gains a line. -/
def Disjoint (form : Form) : Prop :=
  ∀ c before text d rest, form.read? (c :: text) = some (d, rest) →
    Settled form (c :: before) (text.length - rest.length) text

theorem newlines_cons (c : Char) (s : List Char) : newlines (c :: s) = newlines [c] + newlines s :=
  newlines_append [c] s

theorem newlines_replacement {c : Char} {text rest : List Char} (d : Declaration)
    (h : rest.length ≤ text.length) :
    newlines (replacement d (c :: text) rest) =
      newlines d.render + newlines [c] + newlines (text.take (text.length - rest.length)) := by
  have hlen : (c :: text).length - rest.length = (text.length - rest.length) + 1 := by
    rw [List.length_cons]
    omega
  rw [replacement, newlines_append, hlen, List.take_succ_cons, newlines_cons]
  simp only [newlines, List.count_replicate_self]
  omega

theorem length_rest_le {form : Form} {c : Char} {text rest : List Char} {d : Declaration}
    (h : form.read? (c :: text) = some (d, rest)) : rest.length ≤ text.length := by
  obtain ⟨s₁, hs, hrest⟩ := Form.read?_suffix h
  have hlen := congrArg List.length hs
  have hopen : 0 < form.opening.length := by cases form <;> decide
  have := hrest.length_le
  rw [List.length_cons, List.length_append] at hlen
  omega

section Replacing

variable {form : Form} {before text rest : List Char} {c : Char} {region : Region}
  {regions : List Region} {d : Declaration} {ahead after : Ahead}

/-- Replacing keeps the line ends, those left out at the head counted, but for those that the
code for a declaration adds. -/
def Gains (form : Form) (ahead : Ahead) (before text : List Char) (regions : List Region) : Prop :=
  ∃ gained, newlines (replaceFrom form (before.head?.any isWord) ahead text regions)
      + newlines (text.take ahead.dropped) = newlines text + gained ∧
    (gained = 0 ↔ anyInCode (gainsLine form) before text regions = false)

theorem replaceFrom_of_none {afterWord : Bool}
    (h : (if afterWord then none else form.read? (c :: text)) = none) :
    replaceFrom form afterWord .nothing (c :: text) (region :: regions) =
      c :: replaceFrom form (isWord c) .nothing text regions := by
  rw [replaceFrom]
  · rw [h]
  · exact fun _ e => by cases e
  · exact fun _ e => by cases e

theorem replaceFrom_of_some {afterWord : Bool} (region : Region) (regions : List Region)
    (h : (if afterWord then none else form.read? (c :: text)) = some (d, rest)) :
    replaceFrom form afterWord .nothing (c :: text) (region :: regions) =
      if region = .code then
        replacement d (c :: text) rest
          ++ replaceFrom form (isWord c) (.replaced (text.length - rest.length)) text regions
      else c :: replaceFrom form (isWord c) (.kept (text.length - rest.length)) text regions := by
  rw [replaceFrom]
  · rw [h]
  · exact fun _ e => by cases e
  · exact fun _ e => by cases e

/-- A character that stays. -/
theorem gains_kept (h : Gains form after (c :: before) text regions)
    (hafter : after.dropped = 0) (hahead : ahead.dropped = 0)
    (hgain : (region = .code && gainsLine form before (c :: text)) = false)
    (heq : replaceFrom form (before.head?.any isWord) ahead (c :: text) (region :: regions) =
      c :: replaceFrom form (isWord c) after text regions) :
    Gains form ahead before (c :: text) (region :: regions) := by
  obtain ⟨gained, hcount, hiff⟩ := h
  rw [hafter, List.take_zero, List.head?_cons, Option.any_some] at hcount
  refine ⟨gained, ?_, ?_⟩
  · rw [heq, hahead, List.take_zero, newlines_cons, newlines_cons c text]
    omega
  · rw [hiff, anyInCode, hgain, Bool.false_or]

/-- A declaration that is replaced. -/
theorem gains_replacement (hread : form.read? (c :: text) = some (d, rest))
    (hword : before.head?.any isWord = false)
    (h : Gains form (.replaced (text.length - rest.length)) (c :: before) text regions) :
    Gains form .nothing before (c :: text) (.code :: regions) := by
  obtain ⟨gained, hcount, hiff⟩ := h
  rw [Ahead.dropped, List.head?_cons, Option.any_some] at hcount
  refine ⟨newlines d.render + gained, ?_, ?_⟩
  · rw [replaceFrom_of_some _ _ (by rw [hword]; exact hread), if_pos rfl, newlines_append,
      newlines_replacement d (length_rest_le hread), newlines_cons c text, Ahead.dropped,
      List.take_zero]
    have : newlines ([] : List Char) = 0 := rfl
    omega
  · have hgain : gainsLine form before (c :: text) = decide (newlines d.render ≠ 0) := by
      rw [gainsLine, wordBegins, wordEnds, hword, hread]
      rfl
    rw [Nat.add_eq_zero_iff, hiff, anyInCode, hgain, Bool.or_eq_false_iff]
    simp

/-- A character at which no declaration is under way. -/
theorem gains_nothing (hform : Disjoint form)
    (ih : ∀ after : Ahead, Settled form (c :: before) after.skipped text →
      Gains form after (c :: before) text regions) :
    Gains form .nothing before (c :: text) (region :: regions) := by
  cases hread : if before.head?.any isWord then none else form.read? (c :: text) with
  | none =>
    refine gains_kept (ih .nothing (settled_zero _ _ _)) rfl rfl ?_ (replaceFrom_of_none hread)
    have hgain : gainsLine form before (c :: text) = false := by
      unfold gainsLine wordBegins wordEnds
      split at hread
      · next hw => rw [hw, Bool.not_true, Bool.false_and]
      · rw [hread, Option.any_none, Bool.and_false]
    rw [hgain, Bool.and_false]
  | some read =>
    obtain ⟨d, rest⟩ := read
    have heq := replaceFrom_of_some region regions hread
    split at hread
    · cases hread
    · next hw =>
      have hsettled := hform c before text d rest hread
      by_cases hcode : region = .code
      · rw [hcode]
        exact gains_replacement hread (by simpa using hw) (ih (.replaced _) hsettled)
      · rw [if_neg hcode] at heq
        exact gains_kept (ih (.kept _) hsettled) rfl rfl (by simp [hcode]) heq

theorem gains_replaceFrom (hform : Disjoint form) (hregions : regions.length = text.length)
    (hahead : Settled form before ahead.skipped text) :
    Gains form ahead before text regions := by
  induction text generalizing ahead before regions with
  | nil => exact ⟨0, by simp [replaceFrom, newlines], by simp [anyInCode]⟩
  | cons c text ih =>
    obtain ⟨region, regions, rfl⟩ : ∃ r rs, regions = r :: rs := by
      cases regions with
      | nil => cases hregions
      | cons r rs => exact ⟨r, rs, rfl⟩
    have ih (after : Ahead) (h : Settled form (c :: before) after.skipped text) :=
      ih (by simpa using hregions) h
    cases ahead with
    | nothing => exact gains_nothing hform ih
    | kept n =>
      cases n with
      | zero => exact gains_nothing hform ih
      | succ n =>
        exact gains_kept (ih (.kept n) hahead.tail) rfl rfl
          (by rw [hahead.head, Bool.and_false]) rfl
    | replaced n =>
      cases n with
      | zero => exact gains_nothing hform ih
      | succ n =>
        obtain ⟨gained, hcount, hiff⟩ := ih (.replaced n) hahead.tail
        rw [Ahead.dropped, List.head?_cons, Option.any_some] at hcount
        refine ⟨gained, ?_, ?_⟩
        · rw [replaceFrom, Ahead.dropped, List.take_succ_cons, newlines_cons, newlines_cons c text]
          omega
        · rw [hiff, anyInCode, hahead.head, Bool.and_false, Bool.false_or]

/-- Replacing the declarations of one form never loses a line, and gains one only where the code
for a declaration has a line end. -/
theorem newlines_replaceForm (hform : Disjoint form) (text : List Char) :
    newlines text ≤ newlines (replaceForm text form) ∧
      (newlines (replaceForm text form) = newlines text ↔
        occursInCode (gainsLine form) text = false) := by
  have h : Gains form .nothing [] text (regions text) :=
    gains_replaceFrom hform (length_regions text) (settled_zero _ _ _)
  obtain ⟨gained, hcount, hiff⟩ := h
  rw [Ahead.dropped, List.take_zero] at hcount
  have hnil : newlines ([] : List Char) = 0 := rfl
  rw [List.head?_nil, Option.any_none] at hcount
  rw [occursInCode, ← hiff, replaceForm]
  omega

end Replacing

/-! ## Forms -/

theorem gainsLine_of_ne {form : Form} (hform : form ≠ .exportBinding) (before text : List Char) :
    gainsLine form before text = false := by
  unfold gainsLine
  cases h : form.read? text with
  | none => rw [Option.any_none, Bool.and_false]
  | some read =>
    rw [Option.any_some, Form.newlines_render hform h]
    simp

theorem disjoint_of_ne {form : Form} (hform : form ≠ .exportBinding) : Disjoint form :=
  fun _ _ _ _ _ _ _ _ _ => gainsLine_of_ne hform _ _

/-- No word of `s` begins with the first letter of `export`. -/
def isQuiet : (afterWord : Bool) → List Char → Bool
  | _, [] => true
  | afterWord, c :: s => (afterWord || c ≠ 'e') && isQuiet (isWord c) s

theorem isQuiet_append {a b : List Char} {afterWord : Bool} (ha : isQuiet afterWord a = true)
    (hb : ∀ w, isQuiet w b = true) : isQuiet afterWord (a ++ b) = true := by
  induction a generalizing afterWord with
  | nil => exact hb afterWord
  | cons c a ih =>
    rw [isQuiet, Bool.and_eq_true] at ha
    rw [List.cons_append, isQuiet, Bool.and_eq_true]
    exact ⟨ha.1, ih ha.2⟩

theorem isQuiet_of_blank {s : List Char} (h : ∀ c ∈ s, isBlank c = true) (afterWord : Bool) :
    isQuiet afterWord s = true := by
  induction s generalizing afterWord with
  | nil => rfl
  | cons c s ih =>
    have hc : c ≠ 'e' := by
      rintro rfl
      exact absurd (h 'e' (List.mem_cons_self ..)) (by decide)
    rw [isQuiet, Bool.and_eq_true]
    exact ⟨by simp [hc], ih (fun d hd => h d (List.mem_cons_of_mem _ hd)) _⟩

theorem isQuiet_of_isBindingKeyword {keyword : List Char} (h : IsBindingKeyword keyword)
    (afterWord : Bool) : isQuiet afterWord keyword = true := by
  cases h with
  | plain listed =>
    simp only [List.map_cons, List.map_nil, List.mem_cons, List.not_mem_nil, or_false] at listed
    rcases listed with rfl | rfl | rfl | rfl | rfl <;> revert afterWord <;> decide
  | async _ blank =>
    refine isQuiet_append (isQuiet_append ?_ (isQuiet_of_blank blank)) ?_
    · revert afterWord
      decide
    · decide

theorem settled_of_isQuiet {before text : List Char} {n : Nat}
    (h : isQuiet (before.head?.any isWord) (text.take n) = true) :
    Settled .exportBinding before n text := by
  induction text generalizing before n with
  | nil => exact fun i _ hlt => absurd hlt (Nat.not_lt_zero i)
  | cons c text ih =>
    cases n with
    | zero => exact settled_zero _ _ _
    | succ n =>
      rw [List.take_succ_cons, isQuiet, Bool.and_eq_true] at h
      refine settled_cons ?_ (ih h.2)
      unfold gainsLine
      cases hread : Form.exportBinding.read? (c :: text) with
      | none => rw [Option.any_none, Bool.and_false]
      | some read =>
        obtain ⟨s₁, hs, -⟩ := Form.read?_suffix hread
        have hc : c = 'e' := (List.cons.inj hs).1
        have hword : before.head?.any isWord = true := by simpa [hc] using h.1
        rw [wordBegins, wordEnds, hword, Bool.not_true, Bool.false_and]

theorem disjoint_exportBinding : Disjoint .exportBinding := by
  intro c before text d rest h
  obtain ⟨gap, keyword, -, hblank, hkeyword, hs, -, -⟩ := Form.exportBinding_read? h
  obtain ⟨rfl, htext⟩ := List.cons.inj (hs.trans (show "export".toList ++ gap ++ keyword ++ rest =
    'e' :: ("xport".toList ++ gap ++ keyword ++ rest) from rfl))
  refine settled_of_isQuiet ?_
  have hlen : ("xport".toList ++ gap ++ keyword).length = text.length - rest.length := by
    rw [htext]
    simp only [List.length_append]
    omega
  rw [← hlen, htext, List.take_left]
  refine isQuiet_append (isQuiet_append ?_ (isQuiet_of_blank hblank))
    (isQuiet_of_isBindingKeyword hkeyword)
  show isQuiet true "xport".toList = true
  decide

theorem disjoint (form : Form) : Disjoint form := by
  by_cases h : form = .exportBinding
  · rw [h]
    exact disjoint_exportBinding
  · exact disjoint_of_ne h

/-! ## Exported functions with a line end between their words -/

theorem anyInCode_eq_true_iff {p : (before text : List Char) → Bool} {before s : List Char}
    {regions : List Region} :
    anyInCode p before s regions = true ↔ ∃ a b, s = a ++ b ∧ b ≠ [] ∧
      regions[a.length]? = some .code ∧ p (a.reverse ++ before) b = true := by
  induction s generalizing before regions with
  | nil =>
    rw [anyInCode]
    · simp only [Bool.false_eq_true, false_iff]
      rintro ⟨a, b, h, hb, -⟩
      exact hb (List.append_eq_nil_iff.mp h.symm).2
    · exact fun _ _ _ _ h => by cases h
  | cons c s ih =>
    cases regions with
    | nil =>
      rw [anyInCode]
      · simp
      · exact fun _ _ _ _ _ h => by cases h
    | cons region regions =>
      rw [anyInCode, Bool.or_eq_true, ih]
      constructor
      · rintro (h | ⟨a, b, rfl, hb, hregion, hp⟩)
        · rw [Bool.and_eq_true, decide_eq_true_eq] at h
          exact ⟨[], c :: s, rfl, List.cons_ne_nil _ _, congrArg some h.1, h.2⟩
        · refine ⟨c :: a, b, rfl, hb, hregion, ?_⟩
          rw [List.reverse_cons, List.append_assoc]
          exact hp
      · rintro ⟨a, b, hs, hb, hregion, hp⟩
        cases a with
        | nil =>
          obtain rfl : b = c :: s := hs.symm
          left
          rw [Bool.and_eq_true, decide_eq_true_eq]
          exact ⟨Option.some.inj hregion, hp⟩
        | cons d a =>
          obtain ⟨rfl, rfl⟩ := List.cons.inj hs
          right
          refine ⟨a, b, rfl, hb, hregion, ?_⟩
          rw [List.reverse_cons, List.append_assoc] at hp
          exact hp

/-- The code of `text` has an exported `async function` with a line end between its words. -/
def HasSplitAsyncExport (text : List Char) : Prop :=
  ∃ before gap inner rest,
    text = before ++ ("export".toList ++ gap ++ ("async".toList ++ inner ++ "function".toList)
      ++ rest) ∧
    gap ≠ [] ∧ (∀ c ∈ gap, isBlank c = true) ∧ (∀ c ∈ inner, isBlank c = true) ∧ '\n' ∈ inner ∧
    wordBegins before.reverse = true ∧ wordEnds rest = true ∧
    (regions text)[before.length]? = some .code

theorem newlines_isBindingKeyword {keyword : List Char} (h : IsBindingKeyword keyword)
    (hne : newlines keyword ≠ 0) :
    ∃ inner, keyword = "async".toList ++ inner ++ "function".toList ∧
      (∀ c ∈ inner, isBlank c = true) ∧ '\n' ∈ inner := by
  cases h with
  | plain listed =>
    simp only [List.map_cons, List.map_nil, List.mem_cons, List.not_mem_nil, or_false] at listed
    rcases listed with rfl | rfl | rfl | rfl | rfl <;> exact absurd (by decide) hne
  | @async inner _ blank =>
    refine ⟨inner, rfl, blank, ?_⟩
    by_contra hmem
    exact hne ((newlines_framed (by decide) inner (by decide)).trans (List.count_eq_zero.mpr hmem))

theorem occursInCode_gainsLine_exportBinding (text : List Char) :
    occursInCode (gainsLine .exportBinding) text = true ↔ HasSplitAsyncExport text := by
  rw [occursInCode, anyInCode_eq_true_iff]
  constructor
  · rintro ⟨before, b, rfl, -, hregion, hp⟩
    rw [gainsLine, List.append_nil, Bool.and_eq_true] at hp
    cases hread : Form.exportBinding.read? b with
    | none => rw [hread] at hp; cases hp.2
    | some read =>
      obtain ⟨gap, keyword, hne, hblank, hkeyword, rfl, hends, hd⟩ :=
        Form.exportBinding_read? hread
      rw [hread, Option.any_some, hd, decide_eq_true_eq] at hp
      obtain ⟨inner, rfl, hinner, hfeed⟩ := newlines_isBindingKeyword hkeyword hp.2
      exact ⟨before, gap, inner, read.2, rfl, hne, hblank, hinner, hfeed, hp.1, hends, hregion⟩
  · rintro ⟨before, gap, inner, rest, hs, hne, hblank, hinner, hfeed, hbegins, hends, hregion⟩
    refine ⟨before, _, hs, ?_, hregion, ?_⟩
    · simp
    · have hread :=
        Form.exportBinding_read?_async hne hblank (List.ne_nil_of_mem hfeed) hinner hends
      have hd : newlines ("async".toList ++ inner ++ "function".toList) ≠ 0 := by
        rw [newlines_framed (by decide) inner (by decide)]
        exact fun h => List.count_eq_zero.mp h hfeed
      rw [gainsLine, List.append_nil, hbegins, hread, Option.any_some, Bool.true_and,
        decide_eq_true_eq]
      exact hd

/-! ## Instrumented lines -/

theorem newlines_flatMap_lines {ls : List Line} (h : ∀ line ∈ ls, line.Shaped) (number : Nat)
    (fromCode : Bool) :
    newlines ((instrumentFrom number fromCode ls).flatMap InstrumentedLine.text) =
      newlines (ls.flatMap Line.text) := by
  induction ls generalizing number fromCode with
  | nil => rfl
  | cons line following ih =>
    have hline := h line (List.mem_cons_self ..)
    obtain ⟨shown, htext, hshown, -⟩ := instrumentLine_text number fromCode hline following
    have hcontent : newlines (line.content.map Cell.char) = 0 := by
      refine newlines_eq_zero.mpr fun c hc => ?_
      obtain ⟨cell, hcell, rfl⟩ := List.mem_map.mp hc
      exact hline.content cell hcell
    rw [instrumentFrom, List.flatMap_cons, List.flatMap_cons, newlines_append, newlines_append,
      htext, ih fun l hl => h l (List.mem_cons_of_mem _ hl), newlines_append, Line.text,
      Line.cells, List.map_append, newlines_append, hcontent]
    exact congrArg (· + _ + _) (List.count_eq_zero.mpr hshown)

theorem newlines_instrument (source : List Char) :
    newlines (instrument source).text = newlines source := by
  have hlines : (lines (cells source)).flatMap Line.text = source := by
    have h := congrArg (List.map Cell.char) (flatMap_cells_lines (cells source))
    rwa [List.map_flatMap, map_char_cells] at h
  have h : newlines (instrument source).text =
      newlines ((lines (cells source)).flatMap Line.text) :=
    newlines_flatMap_lines (fun _ => shaped_of_mem_lines) 1 true
  rw [h, hlines]

theorem length_physicalLines_le (s : List Char) :
    (physicalLines s).length ≤ newlines s + 1 := by
  have h := cut_splitAfter (· = '\n') s
  conv_rhs => rw [← flatten_splitAfter (· = '\n') s]
  rw [physicalLines]
  generalize splitAfter (· = '\n') s = pieces at h
  induction h with
  | nil => exact Nat.zero_le _
  | unclosed => simp
  | @closed init c pieces _ hc _ ih =>
    have hfeed : newlines [c] = 1 := by
      rw [decide_eq_true_eq] at hc
      rw [hc]
      rfl
    rw [List.length_cons, List.flatten_cons, newlines_append, newlines_append, hfeed]
    omega

theorem line_of_mem_captures {source : List Char} {entry : Nat × List Char}
    (h : entry ∈ (instrument source).captures) :
    1 ≤ entry.1 ∧ entry.1 ≤ newlines source + 1 := by
  obtain ⟨k, line, hline, hnumber, -⟩ := mem_captures_iff.mp h
  have hlt := (List.getElem?_eq_some_iff.mp hline).1
  rw [← List.length_map Line.text, map_text_lines] at hlt
  have := length_physicalLines_le source
  omega

/-! ## The prepared script -/

/-- The script with the declarations replaced that are replaced before exported bindings. -/
def beforeBindings (script : List Char) : List Char :=
  (Form.all.takeWhile (· ≠ .exportBinding)).foldl replaceForm script

theorem newlines_foldl_replaceForm {forms : List Form} (h : .exportBinding ∉ forms)
    (text : List Char) : newlines (forms.foldl replaceForm text) = newlines text := by
  induction forms generalizing text with
  | nil => rfl
  | cons form forms ih =>
    have hform : form ≠ .exportBinding := fun e => h (e ▸ List.mem_cons_self ..)
    rw [List.foldl_cons, ih fun hm => h (List.mem_cons_of_mem _ hm)]
    refine (newlines_replaceForm (disjoint form) text).2.mpr ?_
    rw [occursInCode, Bool.eq_false_iff]
    intro hoccurs
    obtain ⟨_, _, -, -, -, hp⟩ := anyInCode_eq_true_iff.mp hoccurs
    rw [gainsLine_of_ne hform] at hp
    cases hp

theorem newlines_normalize (script : List Char) :
    newlines script ≤ newlines (normalize script) ∧
      (newlines (normalize script) = newlines script ↔
        ¬HasSplitAsyncExport (beforeBindings script)) := by
  have hbefore : newlines (beforeBindings script) = newlines script :=
    newlines_foldl_replaceForm (by decide) script
  have hafter : normalize script =
      [Form.exportNamedFrom, .exportAllFrom, .exportNames].foldl replaceForm
        (replaceForm (beforeBindings script) .exportBinding) := rfl
  have hbinding := newlines_replaceForm disjoint_exportBinding (beforeBindings script)
  rw [hafter, newlines_foldl_replaceForm (by decide), ← hbefore,
    ← occursInCode_gainsLine_exportBinding, Bool.not_eq_true]
  exact hbinding

/-- The prepared script has the lines of the script exactly if the script, with what is replaced
before exported bindings replaced, exports no `async function` with a line end between its
words; otherwise it has more. The captures and the returned expression are numbered by lines of
the prepared script. -/
theorem newlines_prepare (script : List Char) :
    (newlines (normalize script) = newlines script ↔
        ¬HasSplitAsyncExport (beforeBindings script)) ∧
      newlines script ≤ newlines (normalize script) ∧
      (prepare script).normalized = normalize script ∧
      newlines (prepare script).instrumented = newlines (normalize script) ∧
      ∀ number ∈ (prepare script).captures.map Prod.fst ++ (prepare script).resultLine.toList,
        1 ≤ number ∧ number ≤ newlines (normalize script) + 1 := by
  refine ⟨(newlines_normalize script).2, (newlines_normalize script).1, rfl, ?_, ?_⟩
  · unfold prepare
    dsimp only
    rw [newlines_returnLast, newlines_instrument]
  · unfold prepare
    dsimp only
    intro number hnumber
    rcases List.mem_append.mp hnumber with h | h
    · obtain ⟨entry, hentry, rfl⟩ := List.mem_map.mp h
      exact line_of_mem_captures hentry
    · have := line_of_returnLast (Option.mem_toList.mp h)
      rwa [newlines_instrument] at this

/-- A function exported in two lines becomes three. -/
theorem split_async_export_gains_line :
    newlines "export async\nfunction f() \x7b\x7d".toList = 1 ∧
      normalize "export async\nfunction f() \x7b\x7d".toList =
        "async\nfunction\n f() \x7b\x7d".toList := by
  decide

end SnippetRunner.Script
