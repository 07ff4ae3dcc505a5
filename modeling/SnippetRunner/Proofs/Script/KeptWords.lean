import SnippetRunner.Proofs.Number.Double
import SnippetRunner.Proofs.Script.Matches
import SnippetRunner.Proofs.Script.Splices

/-
  What instrumenting leaves as it is. The regions of a script come into its instrumented text
  (`Splices`), and so do the words of its code: the calls and the return statement that are written
  stand apart from what they are written around, and say no word that is looked for. So the script
  and its instrumented text run in the same kind of function and name the same globals.
-/
namespace SnippetRunner.Script

open SnippetRunner.Text SnippetRunner.Source

/-! ## Searches in parts of a text -/

/-- A whole word at a place. `member` tells that it may be the name of a member. -/
def sees (member : Bool) (word before text : List Char) : Bool :=
  (member || !isMember before) && (afterWord? word before text).isSome

/-- Whether a word stands in the code of a part of a text that has `before` in front of it. -/
def finds (member : Bool) (word before : List Char) (gs : List Glyph) : Bool :=
  anyInCode (sees member word) before (gs.map Glyph.char) (gs.map Glyph.region)

/-- A word that begins after `before` is whole in front, and not the name of a member. -/
def IsClear (before : List Char) : Prop :=
  ∀ c ∈ before.head?, isWord c = false ∧ c ≠ '.'

/-- No word goes on from `s` into `t`. -/
def Parted (s t : List Char) : Prop :=
  s.getLast?.any isWord = false ∨ t.head?.any isWord = false

/-- In the code there are no words but numbers. -/
def IsQuiet (gs : List Glyph) : Prop :=
  ∀ g ∈ gs, g.isCode = true → isWord g.char = true → g.char.isDigit = true

section

variable {member : Bool} {word before before' s t : List Char} {g : Glyph} {gs a b : List Glyph}

theorem finds_cons : finds member word before (g :: gs) =
    (g.isCode && sees member word before (g.char :: gs.map Glyph.char) ||
      finds member word (g.char :: before) gs) :=
  rfl

/-- Of what stands in front of a place, the nearest character matters only. -/
theorem sees_congr (h : before.head? = before'.head?) (text : List Char) :
    sees member word before text = sees member word before' text := by
  rw [sees, sees, afterWord?_isSome, afterWord?_isSome, isMember, isMember, wordBegins, wordBegins,
    wordEnds, wordEnds, h]

theorem finds_congr (h : before.head? = before'.head?) (gs : List Glyph) :
    finds member word before gs = finds member word before' gs := by
  induction gs generalizing before before' with
  | nil => rfl
  | cons g gs ih =>
    rw [finds_cons, finds_cons, sees_congr h]
    exact congrArg _ (ih rfl)

theorem IsClear.sees_eq (h : IsClear before) (text : List Char) :
    sees member word before text = (dropStart? word text).any wordEnds := by
  have hmember : isMember before = false := by
    rw [isMember, decide_eq_false_iff_not]
    intro hdot
    exact (h '.' hdot).2 rfl
  have hbegins : wordBegins before = true := by
    rw [wordBegins, wordEnds, Bool.not_eq_true', Option.any_eq_false]
    exact fun c hc => by simpa using (h c hc).1
  rw [sees, afterWord?_isSome, hmember, hbegins, Bool.not_false, Bool.or_true, Bool.true_and,
    Bool.true_and]

theorem IsClear.nil : IsClear [] := by
  intro c hc
  cases hc

/-- Behind what is clear a search comes to the same as at the start of a text. -/
theorem IsClear.finds_eq (h : IsClear before) (gs : List Glyph) :
    finds member word before gs = finds member word [] gs := by
  cases gs with
  | nil => rfl
  | cons g gs =>
    have hrest : finds member word (g.char :: before) gs = finds member word [g.char] gs :=
      finds_congr (by rfl) gs
    rw [finds_cons, finds_cons, h.sees_eq, IsClear.nil.sees_eq, hrest]

theorem dropStart?_any_append (hword : ∀ c ∈ word, isWord c = true) (hne : s ≠ [])
    (h : Parted s t) :
    (dropStart? word (s ++ t)).any wordEnds = (dropStart? word s).any wordEnds := by
  induction word generalizing s with
  | nil =>
    obtain ⟨c, s, rfl⟩ := List.exists_cons_of_ne_nil hne
    rfl
  | cons a word ih =>
    obtain ⟨c, s, rfl⟩ := List.exists_cons_of_ne_nil hne
    have hrest := fun d hd => hword d (List.mem_cons_of_mem _ hd)
    rw [List.cons_append, dropStart?, dropStart?]
    by_cases hc : a = c
    · rw [if_pos hc, if_pos hc]
      cases s with
      | cons d s => exact ih hrest (List.cons_ne_nil _ _) h
      | nil =>
        -- a word character ends the part, so none follows it
        have hnot : t.head?.any isWord = false := by
          refine h.resolve_left ?_
          rw [← hc]
          simp [hword a (List.mem_cons_self ..)]
        cases word with
        | nil => simp [dropStart?, wordEnds, hnot]
        | cons d word =>
          cases t with
          | nil => rfl
          | cons e t =>
            have hde : d ≠ e := by
              rintro rfl
              rw [List.head?_cons, Option.any_some, hrest d (List.mem_cons_self ..)] at hnot
              cases hnot
            simp [dropStart?, hde]
    · rw [if_neg hc, if_neg hc]

/-- A search in two parts that no word runs across is a search in each. -/
theorem finds_append (hword : ∀ c ∈ word, isWord c = true)
    (h : Parted (a.map Glyph.char) (b.map Glyph.char)) :
    finds member word before (a ++ b) =
      (finds member word before a ||
        finds member word ((a.map Glyph.char).reverse ++ before) b) := by
  induction a generalizing before with
  | nil => rfl
  | cons g a ih =>
    have hrest : Parted (a.map Glyph.char) (b.map Glyph.char) := by
      cases a with
      | nil => exact Or.inl rfl
      | cons d a => exact h
    have hsees : sees member word before (g.char :: (a ++ b).map Glyph.char) =
        sees member word before (g.char :: a.map Glyph.char) := by
      rw [List.map_append, ← List.cons_append, sees, sees, afterWord?_isSome, afterWord?_isSome,
        dropStart?_any_append hword (List.cons_ne_nil _ _) h]
    rw [List.cons_append, finds_cons, finds_cons, hsees, ih hrest, Bool.or_assoc, List.map_cons,
      List.reverse_cons, List.append_assoc]
    rfl

/-- Words are not found among numbers. -/
theorem finds_quiet (hword : ∃ c rest, word = c :: rest ∧ isWord c = true ∧ c.isDigit = false)
    (h : IsQuiet gs) (before : List Char) : finds member word before gs = false := by
  obtain ⟨c, rest, rfl, hc, hdigit⟩ := hword
  induction gs generalizing before with
  | nil => rfl
  | cons g gs ih =>
    rw [finds_cons, ih fun a ha => h a (List.mem_cons_of_mem _ ha), Bool.or_false]
    cases hcode : g.isCode with
    | false => rfl
    | true =>
      have hne : c ≠ g.char := by
        rintro rfl
        rw [h g (List.mem_cons_self ..) hcode hc] at hdigit
        cases hdigit
      rw [sees, afterWord?_isSome, dropStart?, if_neg hne]
      simp

theorem isQuiet_of_slight (h : ∀ g ∈ gs, g.isSlight = true) : IsQuiet gs := by
  intro g hg hcode hword
  exfalso
  have hslight := h g hg
  rw [Glyph.isSlight, Bool.or_eq_true, Bool.or_eq_true, decide_eq_true_eq] at hslight
  rcases hslight with (hnot | hblank) | hchar
  · -- in the code all but blanks is significant
    have hcomment : ¬g.isComment = true := by simp [Glyph.not_isComment_of_isCode hcode]
    have hblank := (Glyph.comment_or_blank (by simpa using hnot)).resolve_left hcomment
    rw [not_isWord_of_isBlank (isBlank_of_isAsciiBlank hblank)] at hword
    cases hword
  · rw [not_isWord_of_isBlank hblank] at hword
    cases hword
  · rw [hchar] at hword
    exact absurd hword (by decide)

theorem isQuiet_of_chars (h : ∀ c ∈ gs.map Glyph.char, isWord c = true → c.isDigit = true) :
    IsQuiet gs :=
  fun _ hg _ => h _ (List.mem_map_of_mem hg)

/-- No word runs on from what is clear. -/
theorem IsClear.parted (h : IsClear (s.reverse ++ before)) : Parted s t := by
  left
  cases s.eq_nil_or_concat' with
  | inl hnil =>
    rw [hnil]
    rfl
  | inr hconcat =>
    obtain ⟨init, c, rfl⟩ := hconcat
    rw [List.reverse_append] at h
    rw [List.getLast?_concat, Option.any_some, (h c rfl).1]

theorem isClear_append (hs : ∀ c ∈ s.getLast?, isWord c = false ∧ c ≠ '.')
    (h : s = [] → IsClear before) : IsClear (s.reverse ++ before) := by
  cases s.eq_nil_or_concat' with
  | inl hnil =>
    rw [hnil]
    exact h hnil
  | inr hconcat =>
    obtain ⟨init, c, rfl⟩ := hconcat
    rw [List.reverse_append]
    intro d hd
    exact hs d (by rw [List.getLast?_concat]; exact hd)

end

/-! ## The words that are looked for -/

/-- The glyphs of a capture call in front of the expression. -/
def callGlyphs : List Glyph := callStart.map (⟨·, .code⟩)

/-- A word without digits that is not said by what is written around an expression. -/
structure Sought (member : Bool) (word : List Char) : Prop where
  nonempty : word ≠ []
  letters : ∀ c ∈ word, isWord c = true ∧ c.isDigit = false
  call : finds member word [] callGlyphs = false
  returns : finds member word [] returnGlyphs = false

instance (member : Bool) (word : List Char) : Decidable (Sought member word) :=
  decidable_of_iff
    (word ≠ [] ∧ word.all (fun c => isWord c && !c.isDigit) = true ∧
      finds member word [] callGlyphs = false ∧ finds member word [] returnGlyphs = false)
    ⟨fun ⟨hne, hletters, hcall, hreturns⟩ => ⟨hne, by simpa using hletters, hcall, hreturns⟩,
      fun h => ⟨h.nonempty, by simpa using h.letters, h.call, h.returns⟩⟩

theorem sought_await : Sought true "await".toList := by decide +kernel

theorem sought_globals {capability : Capability} (h : capability ≠ .modules) :
    ∀ word ∈ capability.globals, Sought false word.toList := by
  cases capability with
  | modules => exact absurd rfl h
  | _ => decide +kernel

namespace Sought

variable {member : Bool} {word before : List Char} {gs lead written tail : List Glyph}

theorem all_isWord (h : Sought member word) : ∀ c ∈ word, isWord c = true :=
  fun c hc => (h.letters c hc).1

theorem finds_quiet (h : Sought member word) (hgs : IsQuiet gs) (before : List Char) :
    finds member word before gs = false := by
  obtain ⟨c, rest, rfl⟩ := List.exists_cons_of_ne_nil h.nonempty
  exact Script.finds_quiet ⟨c, rest, rfl, h.letters c (List.mem_cons_self ..)⟩ hgs before

/-- A word is found in an expression or in front of it. -/
theorem finds_between (h : Sought member word) (body : List Glyph)
    (hlead : IsClear ((lead.map Glyph.char).reverse ++ before))
    (hhead : (tail.map Glyph.char).head?.any isWord = false) (hquiet : IsQuiet tail) :
    finds member word before (lead ++ (body ++ tail)) =
      (finds member word before lead || finds member word [] body) := by
  rw [finds_append h.all_isWord hlead.parted, hlead.finds_eq,
    finds_append h.all_isWord (Or.inr hhead), h.finds_quiet hquiet, Bool.or_false]

/-- What is written around the expression makes no difference. -/
theorem finds_written (h : Sought member word) (body : List Glyph)
    (hlead : IsClear ((lead.map Glyph.char).reverse ++ before))
    (hwritten : finds member word [] written = false)
    (hclear : ∃ c ∈ (written.map Glyph.char).getLast?, isWord c = false ∧ c ≠ '.')
    (hhead : (tail.map Glyph.char).head?.any isWord = false) (hquiet : IsQuiet tail) :
    finds member word before (lead ++ (written ++ (body ++ tail))) =
      (finds member word before lead || finds member word [] body) := by
  have hboth : IsClear (((lead ++ written).map Glyph.char).reverse ++ before) := by
    obtain ⟨c, hc, hlast⟩ := hclear
    rw [List.map_append]
    refine isClear_append (fun d hd => ?_) fun hnil => ?_
    · rw [List.getLast?_append, Option.mem_def.mp hc, Option.some_or] at hd
      exact Option.some.inj hd ▸ hlast
    · rw [(List.append_eq_nil_iff.mp hnil).2] at hc
      cases hc
  rw [← List.append_assoc, h.finds_between body hboth hhead hquiet,
    finds_append h.all_isWord hlead.parted, hlead.finds_eq, hwritten, Bool.or_false]

end Sought

/-! ## The capture pass -/

/-- What is cut off behind an expression does not begin with a word. -/
theorem not_isWord_of_ends {l : Lexer} {dropped trailing : List Char} {next : Option Char}
    (h : l.Ends dropped trailing next) : (dropped ++ trailing).head?.any isWord = false := by
  cases dropped with
  | cons d dropped =>
    rw [List.cons_append, List.head?_cons, Option.any_some]
    rcases h.blanks d (List.mem_cons_self ..) with hblank | rfl
    · exact not_isWord_of_isBlank hblank
    · decide
  | nil =>
    cases trailing with
    | nil => rfl
    | cons c trailing =>
      rw [List.nil_append, List.head?_cons, Option.any_some]
      have hout : l.mode.inComment = false := by
        have hsettled := h.settled rfl
        cases hm : l.mode <;> simp [hm, Mode.isSettled, Mode.inComment] at hsettled ⊢
      have hnot := h.trailing ⟨c, (l.step c (trailing.head?.or next)).1⟩ (List.mem_cons_self ..)
      rcases Glyph.comment_or_blank hnot with hcomment | hblank
      · -- a comment that begins here begins with a slash
        rcases Lexer.read_step l c (trailing.head?.or next) with ⟨-, hin | hslash⟩ | ⟨hno, -⟩
        · rw [hout] at hin
          cases hin
        · rw [hslash]
          decide
        · rw [show (l.step c (trailing.head?.or next)).1.isComment = true from hcomment] at hno
          cases hno
      · exact not_isWord_of_isBlank (isBlank_of_isAsciiBlank hblank)

section

variable {member : Bool} {word before : List Char} {l : Lexer} {p : Progress}
  {line rest : List Char} {fromCode : Bool}

theorem clear_of_isAsciiBlank {c : Char} (h : isAsciiBlank c = true) :
    isWord c = false ∧ c ≠ '.' := by
  refine ⟨not_isWord_of_isBlank (isBlank_of_isAsciiBlank h), ?_⟩
  rintro rfl
  exact absurd h (by decide)

theorem Parts.clear_indent {gs : List Glyph} (parts : Parts gs) (h : IsClear before) :
    IsClear ((parts.indent.map Glyph.char).reverse ++ before) := by
  refine isClear_append (fun c hc => ?_) fun _ => h
  obtain ⟨g, hg, rfl⟩ := List.mem_map.mp (List.mem_of_getLast? hc)
  exact clear_of_isAsciiBlank (parts.indentBlank g hg)

theorem Sought.finds_indent {gs : List Glyph} (h : Sought member word) (parts : Parts gs)
    (before : List Char) : finds member word before parts.indent = false :=
  h.finds_quiet (isQuiet_of_slight fun g hg => by simp [Glyph.isSlight, parts.indent_not g hg])
    before

/-- Of a line a word is found in the expression only. -/
theorem Sought.finds_expression (h : Sought member word) (hbefore : IsClear before)
    (parts : Parts (l.glyphsTo line none)) (hmode : l.mode = .code)
    (hne : parts.expression ≠ []) :
    finds member word before (l.glyphsTo line none) = finds member word [] parts.body := by
  obtain ⟨spare, hstatement, hbody, hspare⟩ := parts.exists_spare
  have hhead : ((spare ++ (parts.after ++ parts.terminator)).map Glyph.char).head?.any isWord =
      false := by
    obtain ⟨final, dropped, tail, hread, hsplit⟩ := exists_lineReading_join parts rfl hmode hne
    have hchars := Lexer.map_char_glyphsTo l line none
    rw [congrArg (List.map Glyph.char) (parts.join_body hstatement), List.map_append,
      List.map_append, hbody] at hchars
    rw [List.append_cancel_left (List.append_cancel_left (hchars.trans hsplit))]
    exact not_isWord_of_ends hread.reading.ends
  rw [congrArg (finds member word before) (parts.join_body hstatement),
    h.finds_between parts.body (parts.clear_indent hbefore) hhead
      (isQuiet_of_slight (parts.slight_behind hspare)),
    h.finds_indent, Bool.false_or]

/-- The end of a capture call says a number only. -/
theorem isQuiet_callEnd {gs : List Glyph} (parts : Parts gs) (final : Lexer) (number : Nat) :
    IsQuiet (final.glyphsTo
      (callEnd number ++ ([';'] ++ parts.terminator.map Glyph.char)) none) := by
  refine isQuiet_of_chars fun c hc hword => ?_
  have hwordless {chars : List Char} (hchars : chars.all (!isWord ·) = true) : c ∉ chars := by
    intro hmem
    have hnot := List.all_eq_true.mp hchars c hmem
    rw [hword] at hnot
    cases hnot
  rw [Lexer.map_char_glyphsTo] at hc
  rcases List.mem_append.mp hc with hc | hc
  · rw [callEnd] at hc
    have hc := (List.mem_append.mp hc).resolve_right (hwordless (by decide))
    exact isDigit_of_mem_repr ((List.mem_append.mp hc).resolve_left (hwordless (by decide)))
  · have hc := (List.mem_append.mp hc).resolve_left (hwordless (by decide))
    rcases parts.terminator_chars with e | e | e <;>
    · rw [e] at hc
      exact absurd hc (hwordless (by decide))

/-- In a wrapped line a word is found where it is found in the line. -/
theorem Sought.finds_wrapped (h : Sought member word) (hbefore : IsClear before)
    (parts : Parts (l.glyphsTo line none)) (hmode : l.mode = .code)
    (hne : parts.expression ≠ []) (number : Nat) :
    finds member word before (l.glyphsTo (wrapped parts number) none) =
      finds member word before (l.glyphsTo line none) := by
  obtain ⟨final, -, hwrapped⟩ := exists_glyphsTo_wrapped parts hmode hne number
  have hcall := h.finds_written parts.body (parts.clear_indent hbefore) h.call
    ⟨'(', rfl, by decide⟩ (by rw [Lexer.map_char_glyphsTo]; rfl)
    (isQuiet_callEnd parts final number)
  rw [hwrapped, h.finds_expression hbefore parts hmode hne]
  exact hcall.trans (by rw [h.finds_indent, Bool.false_or])

/-- A word is found on a line or behind it. -/
theorem Sought.finds_line (h : Sought member word) (hline : FirstLine line rest)
    (before : List Char) {gs hs : List Glyph} (hgs : gs.map Glyph.char = line)
    (hhs : hs.map Glyph.char = rest) :
    finds member word before (gs ++ hs) =
      (finds member word before gs || finds member word [] hs) := by
  cases hs with
  | nil => rw [List.append_nil]; exact (Bool.or_false _).symm
  | cons g hs =>
    -- a line that another follows ends with a line feed
    have hfeed : line.getLast? = some '\n' :=
      hline.ended (by rw [← hhs]; exact List.cons_ne_nil _ _)
    have hclear : IsClear ((gs.map Glyph.char).reverse ++ before) := by
      rw [hgs]
      refine isClear_append (fun c hc => ?_) fun hnil => ?_
      · obtain rfl : '\n' = c := Option.some.inj (hfeed.symm.trans hc)
        decide
      · rw [hnil] at hfeed
        cases hfeed
    rw [finds_append h.all_isWord hclear.parted, hclear.finds_eq]

/-- From any line on a word is found in the instrumented text where it is found in the text. -/
theorem Sought.finds_instrumentedFrom (h : Sought member word) (hbefore : IsClear before)
    (hcode : fromCode = true → l.mode = .code) (number : Nat) (text : List Char) :
    finds member word before (l.glyphsFrom (instrumentedFrom number fromCode l p text)) =
      finds member word before (l.glyphsFrom text) := by
  induction text using lines_induction generalizing l p fromCode number before with
  | nil => rfl
  | @line line rest hline ih =>
    obtain ⟨parts⟩ := hline.nonempty_parts l
    have hrest := @ih [] (l.run line none) (p.run (l.glyphsTo line none))
      ((l.glyphsTo line none).getLast?.all Glyph.isCode) IsClear.nil
      (mode_of_getLast? (hline.cut.ne_nil (List.mem_singleton_self _))) (number + 1)
    have hnil : rest = [] → instrumentedFrom (number + 1)
        ((l.glyphsTo line none).getLast?.all Glyph.isCode) (l.run line none)
        (p.run (l.glyphsTo line none)) rest = [] := by
      rintro rfl
      rfl
    rw [hline.glyphsFrom, h.finds_line hline before (Lexer.map_char_glyphsTo ..)
      (Lexer.map_char_glyphsFrom ..), ← hrest]
    by_cases hcap : Captures parts p fromCode ((l.run line none).glyphsFrom rest)
    · have hmode := hcode hcap.fromCode
      rw [hline.glyphsFrom_captured parts hmode hcap,
        h.finds_line (hline.wrapped parts number hnil) before (Lexer.map_char_glyphsTo ..)
          (Lexer.map_char_glyphsFrom ..),
        h.finds_wrapped hbefore parts hmode hcap.nonempty]
    · have hline' : FirstLine line (instrumentedFrom (number + 1)
          ((l.glyphsTo line none).getLast?.all Glyph.isCode) (l.run line none)
          (p.run (l.glyphsTo line none)) rest) :=
        ⟨hline.cut, fun hne => hline.ended (mt hnil hne)⟩
      rw [hline.glyphsFrom_kept parts hcap, h.finds_line hline' before (Lexer.map_char_glyphsTo ..)
        (Lexer.map_char_glyphsFrom ..)]

theorem Sought.finds_instrument (h : Sought member word) (source : List Char) :
    finds member word [] (glyphs (instrument source).text) =
      finds member word [] (glyphs source) := by
  rw [instrument_text]
  exact h.finds_instrumentedFrom IsClear.nil (fun _ => rfl) 1 source

end

/-! ## The return pass -/

/-- What stands in front of a last statement ends another one, or is not significant. -/
theorem LastStatement.Stands.last_before {s : LastStatement} (hs : s.Stands) {c : Cell}
    (hc : s.before.getLast? = some c) : c.boundary = true ∨ c.isSignificant = false := by
  obtain ⟨earlier, lead, hbefore, hearlier, hlead⟩ := hs.begins
  rw [hbefore, List.getLast?_append] at hc
  cases hlast : lead.getLast? with
  | some d =>
    rw [hlast, Option.some_or] at hc
    obtain rfl := Option.some.inj hc
    exact Or.inr (hlead d (List.mem_of_getLast? hlast))
  | none =>
    rw [hlast, Option.none_or] at hc
    exact Or.inl (hearlier c hc)

/-- No word runs into the last statement, and no dot stands in front of it. -/
theorem isClear_before {source : List Char} {s : LastStatement}
    (h : lastStatement? (cells source) = some s) : IsClear (s.before.map Cell.char).reverse := by
  have hs := lastStatement?_stands h
  have hcells := lastStatement?_append h
  obtain ⟨first, more, hstatement, hfirst⟩ := hs.head
  rw [← List.append_nil (s.before.map Cell.char).reverse]
  refine isClear_append (fun d hd => ?_) fun _ => IsClear.nil
  rw [List.getLast?_map, Option.mem_def, Option.map_eq_some_iff] at hd
  obtain ⟨c, hc, rfl⟩ := hd
  rcases hs.last_before hc with hmarked | hnot
  · have hmem : c ∈ Progress.initial.cellsTo (glyphs source) [] := by
      rw [← cells_eq_cellsTo, hcells]
      simp [List.mem_of_getLast? hc]
    rcases (Progress.of_boundary hmem hmarked).2 with hchar | hchar <;>
    · rw [hchar]
      decide
  · have hborders : Borders c.glyph first.glyph := by
      obtain ⟨init, hinit⟩ := List.getLast?_eq_some_iff.mp hc
      have hchain := isChain_glyphs source
      have hglyphs : glyphs source = init.map Cell.glyph ++
          c.glyph :: first.glyph :: (more ++ s.after).map Cell.glyph := by
        rw [← map_glyph_cells, hcells, hinit, hstatement]
        simp
      rw [hglyphs, List.isChain_append_cons_cons] at hchain
      exact hchain.2.1
    have hfirst : first.glyph.isSignificant = true := hfirst
    rcases Glyph.comment_or_blank hnot with hcomment | hblank
    · -- a comment is closed in front of the statement
      have hout : first.glyph.isComment = false := (Glyph.isSignificant_iff.mp hfirst).1
      have hslash : c.char = '/' := (hborders.closesComment hcomment hout).resolve_right
        (Glyph.char_ne_newline_of_isSignificant hfirst)
      rw [hslash]
      decide
    · exact clear_of_isAsciiBlank hblank

/-- A word is found in the returned text where it is found in the script. -/
theorem Sought.finds_returned {member : Bool} {word source : List Char} {s : LastStatement}
    (h : Sought member word) (hlast : lastStatement? (cells source) = some s)
    (hne : s.expression ≠ []) :
    finds member word [] (glyphs s.returned) = finds member word [] (glyphs source) := by
  obtain ⟨l, final, cut, inner, hread⟩ := exists_around hlast hne
  have hcells := lastStatement?_append hlast
  have hsource : glyphs source = s.before.map Cell.glyph ++ (l.glyphsTo s.expression (some ';') ++
      final.glyphsTo (cut ++ (inner ++ s.after.map Cell.char)) none) := by
    rw [← map_glyph_cells, hcells, List.append_assoc, List.map_append, hread.rest]
  have hclear : IsClear (((s.before.map Cell.glyph).map Glyph.char).reverse ++ []) := by
    rw [List.append_nil, map_char_glyph]
    exact isClear_before hlast
  have hdropped := h.finds_between (l.glyphsTo s.expression (some ';')) hclear
    (by rw [Lexer.map_char_glyphsTo]; exact not_isWord_of_ends hread.ends)
    (isQuiet_of_slight hread.ends.slight)
  have htrailing := trailing_not hread.ends hread.ready hread.tail_eq hread.closed
  rw [hsource, hdropped, hread.glyphs_returned rfl]
  refine h.finds_written _ hclear h.returns ⟨' ', rfl, by decide⟩ ?_ (isQuiet_of_slight ?_)
  · rw [List.map_cons, List.head?_cons, Option.any_some]
    exact (by decide : isWord ';' = false)
  · intro g hg
    rcases List.mem_cons.mp hg with rfl | hg
    · simp [Glyph.isSlight]
    · simp [Glyph.isSlight, htrailing g hg]

theorem Sought.finds_returnLast {member : Bool} {word : List Char} (h : Sought member word)
    (source : List Char) :
    finds member word [] (glyphs (returnLast source).text) =
      finds member word [] (glyphs source) := by
  rcases returnLast_cases source with ⟨s, hlast, hreturnable, e⟩ | e
  · rw [e]
    exact h.finds_returned hlast (isReturnable_iff.mp hreturnable).2
  · rw [e]

/-! ## Detection -/

theorem needsAsync_eq (script : List Char) :
    needsAsync script = finds true "await".toList [] (glyphs script) := by
  rw [needsAsync, occursInCode, finds, map_char_glyphs]
  rfl

theorem mentions_eq (source : List Char) (global : String) :
    Capability.mentions source global = finds false global.toList [] (glyphs source) := by
  rw [Capability.mentions, occursInCode, finds, map_char_glyphs]
  rfl

/-- Preparing a script leaves the words of its code as they are. -/
theorem Sought.finds_prepare {member : Bool} {word : List Char} (h : Sought member word)
    (script : List Char) :
    finds member word [] (glyphs (prepare script).instrumented) =
      finds member word [] (glyphs (prepare script).normalized) := by
  rw [prepare]
  dsimp only
  rw [h.finds_returnLast, h.finds_instrument]

/-- What a script needs besides module loading is the same for its instrumented text. -/
theorem isRequired_prepare {capability : Capability} (h : capability ≠ .modules)
    (script : List Char) :
    capability.isRequired (prepare script).instrumented =
      capability.isRequired (prepare script).normalized := by
  rw [isRequired_of_ne_modules h, isRequired_of_ne_modules h, Bool.eq_iff_iff, List.any_eq_true,
    List.any_eq_true]
  refine exists_congr fun word => and_congr_right fun hword => ?_
  rw [mentions_eq, mentions_eq, (sought_globals h word hword).finds_prepare]

/-- Neither pass over a script changes the region of anything significant that it copies, and no
pass changes the order of what it copies. So the normalized script and the instrumented text wait
alike, and need the same besides module loading. -/
theorem instrumenting_keeps_regions :
    (∀ source, KeepsRegions source (instrument source).text (captureEdits source) ∧
      KeepsRegions source (returnLast source).text (returnEdits source)) ∧
    ∀ script, needsAsync (prepare script).instrumented = needsAsync (prepare script).normalized ∧
      (Capability.required (prepare script).instrumented).filter (· ≠ .modules) =
        (Capability.required (prepare script).normalized).filter (· ≠ .modules) := by
  refine ⟨fun source => ⟨instrument_keepsRegions source, return_keepsRegions source⟩,
    fun script => ⟨?_, ?_⟩⟩
  · rw [needsAsync_eq, needsAsync_eq, sought_await.finds_prepare]
  · rw [Capability.required, Capability.required, List.filter_filter, List.filter_filter]
    refine List.filter_congr fun capability _ => ?_
    by_cases hmodules : capability = .modules
    · simp [hmodules]
    · rw [isRequired_prepare hmodules]

end SnippetRunner.Script
