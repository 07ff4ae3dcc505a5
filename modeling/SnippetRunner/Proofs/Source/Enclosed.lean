import SnippetRunner.Proofs.Source.Borders
import SnippetRunner.Proofs.Source.Ending
import SnippetRunner.Proofs.Source.Pushdown

/-
  A text inside brackets. Behind one open brace the lexer gives a text the regions that it has on
  its own: a closing brace that the text did not open takes the outer one off the stack, and is
  code all the same. The walk has the outer brackets below its own until the text closes a bracket
  that it did not open (`depth_inside_iff`).
-/
namespace SnippetRunner.Source

open SnippetRunner.Text

/-! ## The lexer behind a brace -/

namespace Pushdown

/-- The same place, with one brace more below the stack, or with the same stack. -/
def Lifted (s s' : State) : Prop :=
  s'.inside = s.inside ∧ (s'.stack = s.stack ++ [.brace] ∨ s'.stack = s.stack)

theorem lifted_closeBrace {stack stack' : List Symbol}
    (h : stack' = stack ++ [.brace] ∨ stack' = stack) :
    (closeBrace stack').1 = (closeBrace stack).1 ∧
      Lifted (closeBrace stack).2 (closeBrace stack').2 := by
  rcases h with rfl | rfl
  · match stack with
    | [] => exact ⟨rfl, rfl, Or.inr rfl⟩
    | .brace :: outer => exact ⟨rfl, rfl, Or.inl rfl⟩
    | .substitution :: outer => exact ⟨rfl, rfl, Or.inl rfl⟩
  · exact ⟨rfl, rfl, Or.inr rfl⟩

theorem lifted_push {stack stack' : List Symbol} (symbol : Symbol)
    (h : stack' = stack ++ [.brace] ∨ stack' = stack) :
    symbol :: stack' = (symbol :: stack) ++ [.brace] ∨ symbol :: stack' = symbol :: stack :=
  h.imp (congrArg (symbol :: ·)) (congrArg (symbol :: ·))

/-- Both read a character alike, and are at the same place behind it. -/
theorem lifted_step {s s' : State} (h : Lifted s s') (c : Char) (next : Option Char) :
    (s'.step c next).1 = (s.step c next).1 ∧ Lifted (s.step c next).2 (s'.step c next).2 := by
  obtain ⟨inside, stack⟩ := s
  obtain ⟨inside', stack'⟩ := s'
  obtain ⟨rfl, hstack⟩ := h
  dsimp only at hstack
  unfold State.step
  cases inside' with
  | code =>
    dsimp only
    unfold stepCode
    split_ifs
    · exact ⟨rfl, rfl, hstack⟩
    · exact ⟨rfl, rfl, hstack⟩
    · exact ⟨rfl, rfl, hstack⟩
    · exact ⟨rfl, rfl, hstack⟩
    · exact ⟨rfl, rfl, lifted_push .brace hstack⟩
    · exact lifted_closeBrace hstack
    · exact ⟨rfl, rfl, hstack⟩
  | string quote read =>
    dsimp only
    unfold stepString
    split_ifs <;> exact ⟨rfl, rfl, hstack⟩
  | template read =>
    dsimp only
    unfold stepTemplate
    split_ifs
    · exact ⟨rfl, rfl, hstack⟩
    · exact ⟨rfl, rfl, lifted_push .substitution hstack⟩
    · exact ⟨rfl, rfl, hstack⟩
  | lineComment =>
    dsimp only
    unfold stepLineComment
    split_ifs <;> exact ⟨rfl, rfl, hstack⟩
  | blockComment read =>
    dsimp only
    unfold stepBlockComment
    split_ifs <;> exact ⟨rfl, rfl, hstack⟩

theorem regionsFrom_lifted {s s' : State} (h : Lifted s s') (text : List Char) :
    s'.regionsFrom text = s.regionsFrom text := by
  induction text generalizing s s' with
  | nil => rfl
  | cons c rest ih =>
    obtain ⟨hregion, hrest⟩ := lifted_step h c rest.head?
    rw [State.regionsFrom, State.regionsFrom, hregion, ih hrest]

end Pushdown

/-- Glyphs are told by their characters and their regions. -/
theorem eq_of_map_char_region {gs hs : List Glyph}
    (hchar : gs.map Glyph.char = hs.map Glyph.char)
    (hregion : gs.map Glyph.region = hs.map Glyph.region) : gs = hs := by
  have hzip (ks : List Glyph) :
      List.zipWith Glyph.mk (ks.map Glyph.char) (ks.map Glyph.region) = ks := by
    induction ks with
    | nil => rfl
    | cons k ks ih => rw [List.map_cons, List.map_cons, List.zipWith_cons_cons, ih]
  rw [← hzip gs, hchar, hregion, hzip]

namespace Lexer

/-- In code, behind one open brace. -/
def braced : Lexer := ⟨.code, [], 1⟩

theorem glyphsFrom_braced (text : List Char) : braced.glyphsFrom text = glyphs text := by
  have hbraced : Pushdown.Agrees braced ⟨.code, [.brace]⟩ text.head? := ⟨trivial, rfl, rfl⟩
  have hlifted : Pushdown.Lifted Pushdown.initial ⟨.code, [.brace]⟩ := ⟨rfl, Or.inl rfl⟩
  refine eq_of_map_char_region ?_ ?_
  · rw [map_char_glyphsFrom, map_char_glyphs]
  · calc (braced.glyphsFrom text).map Glyph.region
        = (⟨.code, [.brace]⟩ : Pushdown.State).regionsFrom text :=
          Pushdown.regionsFrom_eq (l := braced) trivial hbraced
      _ = Pushdown.initial.regionsFrom text := Pushdown.regionsFrom_lifted hlifted text
      _ = (glyphs text).map Glyph.region := (Pushdown.regions_eq text).symm

/-- A text is read before a line end as on its own. -/
theorem glyphsTo_newline (l : Lexer) (text : List Char) :
    l.glyphsTo text (some '\n') = l.glyphsFrom text := by
  rw [glyphsFrom_eq_glyphsTo]
  cases text.eq_nil_or_concat' with
  | inl hnil =>
    rw [hnil]
    rfl
  | inr hconcat =>
    obtain ⟨init, c, rfl⟩ := hconcat
    exact (glyphsTo_eq_of_last (step_eq_of_unmarked _ c (by decide) (by decide))).1

/-! ## Closing brackets -/

variable {l : Lexer} {next : Option Char}

/-- A closing brace is code exactly if the lexer is in code behind it. -/
theorem step_brace (h : l.Ready (some '\x7d')) :
    (l.step '\x7d' next).1 = .code ↔ (l.step '\x7d' next).2.mode = .code := by
  refine ⟨mode_of_region_code, fun hmode => ?_⟩
  unfold Ready at h
  cases hm : l.mode with
  | code =>
    rw [step_code hm] at hmode ⊢
    have hstep : l.stepCode '\x7d' next = l.closeBrace := by simp [stepCode]
    rw [hstep] at hmode ⊢
    rcases l.closeBrace_cases with ⟨outer, -, e⟩ | e
    · rw [e] at hmode
      cases hmode
    · rw [e]
  | quoted quote =>
    rw [hm] at h
    have hquote : '\x7d' ≠ quote := by rcases h with rfl | rfl <;> decide
    simp [step_quoted hm, stepQuoted, hquote, hm] at hmode
  | quotedEscape quote => simp [step_quotedEscape hm] at hmode
  | template => simp [step_template hm, stepTemplate, hm] at hmode
  | templateEscape => simp [step_templateEscape hm] at hmode
  | lineComment => simp [step_lineComment hm, hm] at hmode
  | blockComment => simp [step_blockComment hm, hm] at hmode
  | substitutionOpen | commentOpen | commentClose =>
    rw [hm] at h
    exact absurd h (by simp [Mode.FitsBefore])

/-- Parentheses are not code where the lexer is not in code in front of them. -/
theorem not_code_of_parentheses {s : List Char} (hs : ∀ c ∈ s, c = '(' ∨ c = ')')
    (hready : l.Ready s.head?) (hm : l.mode ≠ .code) :
    ∀ g ∈ l.glyphsFrom s, g.isCode = false := by
  induction s generalizing l with
  | nil => simp [glyphsFrom]
  | cons c s ih =>
    have hc := hs c (List.mem_cons_self ..)
    have hregion : (l.step c s.head?).1 ≠ .code := by
      refine fun hr => hm ((code_or_newline hr).resolve_right ?_)
      rcases hc with rfl | rfl <;> decide
    have hmode : (l.step c s.head?).2.mode ≠ .code := by
      intro hmode
      have hborder := mem_borderChars_of_enters hready hregion hmode
      rcases hc with rfl | rfl <;> exact absurd hborder (by decide)
    rw [glyphsFrom]
    refine List.forall_mem_cons.mpr ⟨by simpa [Glyph.isCode] using hregion, ?_⟩
    exact ih (fun d hd => hs d (List.mem_cons_of_mem _ hd)) (ready_step hready) hmode

end Lexer

/-! ## The walk inside brackets -/

/-- None of the cells closes a bracket that was not opened. -/
def ClosesOwn (cs : List Cell) : Prop :=
  ∀ c ∈ cs, c.isCode = true → isClosing c.char = true → c.depth ≠ 0

/-- A text closes the brackets that it opens, and no others. -/
structure IsBalanced (source : List Char) : Prop where
  closesOwn : ClosesOwn (cells source)
  closed : ∀ c ∈ (cells source).getLast?, c.depthAfter = 0

instance (cs : List Cell) : Decidable (ClosesOwn cs) :=
  inferInstanceAs (Decidable (∀ c ∈ cs, c.isCode = true → isClosing c.char = true → c.depth ≠ 0))

instance (source : List Char) : Decidable (IsBalanced source) :=
  decidable_of_iff
    (ClosesOwn (cells source) ∧ ∀ c ∈ (cells source).getLast?, c.depthAfter = 0)
    ⟨fun h => ⟨h.1, h.2⟩, fun h => ⟨h.closesOwn, h.closed⟩⟩

theorem closesOwn_cons {c : Cell} {cs : List Cell} : ClosesOwn (c :: cs) ↔
    (c.isCode = true → isClosing c.char = true → c.depth ≠ 0) ∧ ClosesOwn cs :=
  List.forall_mem_cons

theorem closesOwn_append {a b : List Cell} :
    ClosesOwn (a ++ b) ↔ ClosesOwn a ∧ ClosesOwn b :=
  List.forall_mem_append

namespace Progress

/-- The depth behind characters of code. -/
theorem depth_run_code (p : Progress) (s : List Char) :
    (p.run (s.map (⟨·, .code⟩))).nesting.depth = s.foldl (fun depth c =>
      if isOpening c then depth + 1 else if isClosing c then depth - 1 else depth)
      p.nesting.depth := by
  induction s generalizing p with
  | nil => rfl
  | cons c s ih =>
    have hstep : (p.step ⟨c, .code⟩).nesting.depth = if isOpening c then p.nesting.depth + 1
        else if isClosing c then p.nesting.depth - 1 else p.nesting.depth :=
      p.depth_step ⟨c, .code⟩
    rw [List.map_cons, run_cons, ih, hstep, List.foldl_cons]

theorem map_depthAfter_getLast? (p : Progress) {gs : List Glyph} (h : gs ≠ [])
    (f : List Glyph) :
    ((p.cellsTo gs f).getLast?).map Cell.depthAfter = some (p.run gs).nesting.depth := by
  obtain ⟨init, g, rfl⟩ := gs.eq_nil_or_concat'.resolve_left h
  rw [getLast?_cellsTo, run_concat]
  rfl

variable {p p' : Progress} {k : Nat}

/-- While the text closes its own brackets, the outer ones stay open. -/
theorem depth_step_inside {g : Glyph} (h : p'.nesting.depth = p.nesting.depth + k)
    (hown : g.isCode = true → isClosing g.char = true → p.nesting.depth ≠ 0) :
    (p'.step g).nesting.depth = (p.step g).nesting.depth + k := by
  rw [depth_step, depth_step, h]
  split
  · omega
  · split
    · next hclosing =>
      rw [Bool.and_eq_true] at hclosing
      have := hown hclosing.1 hclosing.2
      omega
    · rfl

/-- A bracket that the text has not opened closes an outer one. -/
theorem depth_step_foreign {g : Glyph} (h : p'.nesting.depth = p.nesting.depth + k)
    (hcode : g.isCode = true) (hclosing : isClosing g.char = true) (hdepth : p.nesting.depth = 0) :
    (p'.step g).nesting.depth = k - 1 := by
  have hopening : isOpening g.char = false := by
    simp only [isClosing, Bool.or_eq_true, decide_eq_true_eq] at hclosing
    rcases hclosing with (e | e) | e <;> rw [e] <;> decide
  rw [depth_step, hopening, hcode, hclosing, h, hdepth, Nat.zero_add]
  rfl

theorem depth_run_inside {gs f : List Glyph} (h : p'.nesting.depth = p.nesting.depth + k)
    (hown : ClosesOwn (p.cellsTo gs f)) :
    (p'.run gs).nesting.depth = (p.run gs).nesting.depth + k := by
  induction gs generalizing p p' with
  | nil => exact h
  | cons g gs ih =>
    rw [cellsTo, closesOwn_cons] at hown
    exact ih (depth_step_inside h hown.1) hown.2

/-- The text stays inside the outer brackets exactly if it closes none of them. -/
theorem inside_iff_closesOwn {gs f f' : List Glyph} (hk : 0 < k)
    (h : p'.nesting.depth = p.nesting.depth + k) :
    (∀ c ∈ p'.cellsTo gs f', c.isCode = true → k ≤ c.depth ∧ k ≤ c.depthAfter) ↔
      ClosesOwn (p.cellsTo gs f) := by
  induction gs generalizing p p' with
  | nil => simp [cellsTo, ClosesOwn]
  | cons g gs ih =>
    rw [cellsTo, cellsTo, List.forall_mem_cons, closesOwn_cons]
    by_cases hown : g.isCode = true → isClosing g.char = true → p.nesting.depth ≠ 0
    · have hstep := depth_step_inside h hown
      have hhead : g.isCode = true → k ≤ p'.nesting.depth ∧ k ≤ (p'.step g).nesting.depth :=
        fun _ => ⟨by omega, by omega⟩
      exact and_congr (iff_of_true hhead hown) (ih hstep)
    · refine iff_of_false (fun hall => ?_) fun hall => hown hall.1
      push Not at hown
      obtain ⟨hcode, hclosing, hdepth⟩ := hown
      have hafter : k ≤ (p'.step g).nesting.depth := (hall.1 hcode).2
      rw [depth_step_foreign h hcode hclosing hdepth] at hafter
      omega

theorem depth_step_of_not_code {g : Glyph} (h : g.isCode = false) :
    (p.step g).nesting.depth = p.nesting.depth := by
  rw [depth_step, h]
  rfl

theorem depth_run_of_not_code {gs : List Glyph} (h : ∀ g ∈ gs, g.isCode = false) :
    (p.run gs).nesting.depth = p.nesting.depth := by
  induction gs generalizing p with
  | nil => rfl
  | cons g gs ih =>
    rw [run_cons, ih fun a ha => h a (List.mem_cons_of_mem _ ha),
      depth_step_of_not_code (h g (List.mem_cons_self ..))]

/-- Where all code lies deeper than the place itself, none stands. -/
theorem depth_run_below {gs f : List Glyph} (h : p.nesting.depth < k)
    (hin : ∀ c ∈ p.cellsTo gs f, c.isCode = true → k ≤ c.depth) :
    (p.run gs).nesting.depth = p.nesting.depth := by
  induction gs generalizing p with
  | nil => rfl
  | cons g gs ih =>
    rw [cellsTo, List.forall_mem_cons] at hin
    have hcode : g.isCode = false := by
      refine Bool.eq_false_iff.mpr fun hg => ?_
      have : k ≤ p.nesting.depth := hin.1 hg
      omega
    have hstep := depth_step_of_not_code (p := p) hcode
    rw [run_cons, ih (by omega) hin.2, hstep]

/-- A text that closes an outer bracket and has all its code inside the outer ones has no code
behind that bracket. -/
theorem depth_run_foreign {gs f f' : List Glyph} (hk : 0 < k)
    (h : p'.nesting.depth = p.nesting.depth + k)
    (hin : ∀ c ∈ p'.cellsTo gs f', c.isCode = true → k ≤ c.depth)
    (hforeign : ¬ClosesOwn (p.cellsTo gs f)) : (p'.run gs).nesting.depth = k - 1 := by
  induction gs generalizing p p' with
  | nil => exact absurd (by simp [cellsTo, ClosesOwn]) hforeign
  | cons g gs ih =>
    rw [cellsTo, List.forall_mem_cons] at hin
    rw [cellsTo, closesOwn_cons] at hforeign
    by_cases hown : g.isCode = true → isClosing g.char = true → p.nesting.depth ≠ 0
    · exact ih (depth_step_inside h hown) hin.2 fun hrest => hforeign ⟨hown, hrest⟩
    · push Not at hown
      obtain ⟨hcode, hclosing, hdepth⟩ := hown
      have hafter := depth_step_foreign h hcode hclosing hdepth
      rw [run_cons, depth_run_below (by omega) hin.2, hafter]

end Progress

theorem isBalanced_iff {source : List Char} : IsBalanced source ↔
    ClosesOwn (cells source) ∧ (Progress.initial.run (glyphs source)).nesting.depth = 0 := by
  have hclosed : (∀ c ∈ (cells source).getLast?, c.depthAfter = 0) ↔
      (Progress.initial.run (glyphs source)).nesting.depth = 0 := by
    rw [cells_eq_cellsTo]
    by_cases hnil : glyphs source = []
    · rw [hnil]
      exact iff_of_true (fun c hc => by cases hc) rfl
    · have hlast := Progress.initial.map_depthAfter_getLast? hnil []
      obtain ⟨c, hc, hdepth⟩ := Option.map_eq_some_iff.mp hlast
      rw [← hdepth, hc]
      simp
  exact ⟨fun h => ⟨h.closesOwn, hclosed.mp h.closed⟩, fun h => ⟨h.1, hclosed.mpr h.2⟩⟩

end SnippetRunner.Source
