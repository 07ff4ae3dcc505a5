import SnippetRunner.Proofs.Script.Rereturn

/-
  The lines of a returned text. The lines before the return statement are captured only if they
  are in the script; the line of the return word is not, for the word begins a statement on it;
  and on a later line a statement begins only at a detached semicolon of the script.
-/
namespace SnippetRunner.Script

open SnippetRunner.Text SnippetRunner.Source

/-! ## Where a captured line stands -/

theorem FirstLine.newlines_eq_one {line rest : List Char} (h : FirstLine line rest)
    (hrest : rest ≠ []) : newlines line = 1 := by
  have hlast := h.ended hrest
  cases h.cut with
  | unclosed _ hu =>
    have := hu '\n' (List.mem_of_getLast? hlast)
    simp at this
  | closed hu hm _ =>
    obtain rfl := of_decide_eq_true hm
    rw [newlines, List.count_append, List.count_singleton_self, List.count_eq_zero_of_not_mem]
    intro hmem
    have := hu '\n' hmem
    simp at this

/-- A captured line has a significant character that begins its statement; the statement is no
skipped form, so the character does not stand alone if that is one. -/
theorem exists_of_capturesLine {l : Lexer} {p : Progress} {fromCode : Bool} {k : Nat}
    {text : List Char} (h : CapturesLine fromCode (lines (walk l p text)) k) :
    ∃ before g rest, l.glyphsFrom text = before ++ g :: rest ∧
      newlines (before.map Glyph.char) = k ∧ g.isSignificant = true ∧
      (p.run before).isFresh (g :: rest) = true ∧
      ((∀ a ∈ rest, a.isSignificant = false) → isSkippedForm [g.char] = false) := by
  induction text using lines_induction generalizing l p fromCode k with
  | nil => cases h
  | @line line rest hline ih =>
    obtain ⟨parts⟩ := hline.nonempty_parts l
    rw [hline.glyphsFrom]
    cases k with
    | zero =>
      have hcap := (hline.capturesLine_zero parts fromCode).mp h
      obtain ⟨g, more, hmore, hg, hfresh⟩ := hcap.head
      refine ⟨parts.indent, g, more ++ (parts.after ++ (parts.terminator ++
        (l.run line none).glyphsFrom rest)), ?_,
        Spot.newlines_eq_zero_of_feedless parts.indent_feedless, hg, ?_, fun hnot => ?_⟩
      · rw [parts.join_following, hmore]
        rfl
      · rw [Progress.isFresh, p.run_ended_of_not parts.indent_not,
          p.run_broken_of_not parts.indent_not parts.indent_feedless,
          continuesIn_cons_of_significant hg]
        exact hfresh
      · -- the statement ends with a significant character
        have hnil : more = [] := by
          by_contra hne
          obtain ⟨init, last, e⟩ := more.eq_nil_or_concat'.resolve_left hne
          have hlast := parts.lastSignificant last (by
            rw [hmore, e, ← List.cons_append, List.getLast?_concat]
            rfl)
          rw [hnot last (by rw [e]; simp)] at hlast
          cases hlast
        have hform := hcap.form
        rwa [hmore, hnil] at hform
    | succ k =>
      rw [hline.capturesLine_succ] at h
      have hrest : rest ≠ [] := by
        rintro rfl
        cases h
      obtain ⟨before, g, behind, hglyphs, hcount, hg, hfresh, hform⟩ := ih h
      refine ⟨l.glyphsTo line none ++ before, g, behind, ?_, ?_, hg, ?_, hform⟩
      · rw [hglyphs, List.append_assoc]
      · have hline' : (line.count '\n') = 1 := hline.newlines_eq_one hrest
        rw [newlines] at hcount
        rw [List.map_append, Lexer.map_char_glyphsTo, newlines, List.count_append, hline', hcount,
          Nat.add_comm]
      · rw [Progress.run_append]
        exact hfresh

/-! ## Lines before the return statement -/

/-- Whether a line is captured depends on what follows it only where no semicolon ends it. -/
theorem Captures.of_following {gs : List Glyph} {parts : Parts gs} {p : Progress} {fromCode : Bool}
    {f f' : List Glyph} (h : Captures parts p fromCode f')
    (hf : (p.run gs).ended = false → continuesIn f = true → continuesIn f' = true) :
    Captures parts p fromCode f :=
  ⟨h.outer, h.outerAfter, h.fromCode, h.endsInCode, h.begins, h.form, h.single,
    h.ends_of_following hf, h.nonempty⟩

/-- A statement that no semicolon has ended and that goes on in `text` goes on in `text'`. -/
def ContinuesLike (l : Lexer) (p : Progress) (text text' : List Char) : Prop :=
  p.ended = false → continuesIn (l.glyphsFrom text) = true → continuesIn (l.glyphsFrom text') = true

theorem glyphsFrom_of_feed (l : Lexer) {part : List Char}
    (h : part = [] ∨ part.getLast? = some '\n') (text : List Char) :
    l.glyphsFrom (part ++ text) = l.glyphsTo part none ++ (l.run part none).glyphsFrom text := by
  obtain ⟨hglyphs, hrun⟩ := glyphsTo_of_feed l h text.head?
  rw [Lexer.glyphsFrom_append, hglyphs, hrun]

theorem ContinuesLike.append {l : Lexer} {p : Progress} {part text text' : List Char}
    (hpart : part = [] ∨ part.getLast? = some '\n')
    (h : ContinuesLike (l.run part none) (p.run (l.glyphsTo part none)) text text') :
    ContinuesLike l p (part ++ text) (part ++ text') := by
  intro hended hcontinues
  rw [glyphsFrom_of_feed l hpart] at hcontinues ⊢
  cases hany : (l.glyphsTo part none).any Glyph.isSignificant with
  | true => rwa [← continuesIn_append_of_any hany]
  | false =>
    have hnot : ∀ g ∈ l.glyphsTo part none, g.isSignificant = false := by
      simpa using List.any_eq_false.mp hany
    rw [continuesIn_append_of_not hnot] at hcontinues ⊢
    exact h ((p.run_ended_of_not hnot).trans hended) hcontinues

/-- Lines that two texts have in common are captured alike. -/
theorem capturesLine_append {l : Lexer} {p : Progress} {fromCode : Bool} {k : Nat}
    {part text text' : List Char} (hpart : part = [] ∨ part.getLast? = some '\n')
    (hlike : ContinuesLike (l.run part none) (p.run (l.glyphsTo part none)) text text')
    (h : CapturesLine fromCode (lines (walk l p (part ++ text'))) k) :
    CapturesLine fromCode (lines (walk l p (part ++ text))) k ∨
      ∃ fromCode' j, k = newlines part + j ∧ CapturesLine fromCode'
        (lines (walk (l.run part none) (p.run (l.glyphsTo part none)) text')) j := by
  induction part using lines_induction generalizing l p fromCode k with
  | nil => exact Or.inr ⟨fromCode, k, (Nat.zero_add k).symm, h⟩
  | @line line rest hline ih =>
    have hrest : rest = [] ∨ rest.getLast? = some '\n' := by
      rcases rest.eq_nil_or_concat' with hnil | ⟨init, c, rfl⟩
      · exact Or.inl hnil
      · rcases hpart with hpart | hpart
        · simp at hpart
        · rw [← List.append_assoc, List.getLast?_concat] at hpart
          exact Or.inr (by rw [List.getLast?_concat, hpart])
    have hlast : line.getLast? = some '\n' := by
      rcases rest.eq_nil_or_concat' with hnil | ⟨init, c, rfl⟩
      · rw [hnil, List.append_nil] at hpart
        exact hpart.resolve_left (hline.cut.ne_nil (List.mem_singleton_self _))
      · exact hline.ended (by simp)
    have hfirst (behind : List Char) : FirstLine line behind := ⟨hline.cut, fun _ => hlast⟩
    obtain ⟨parts⟩ := hline.nonempty_parts l
    rw [Lexer.run_append, Lexer.glyphsTo_append, (glyphsTo_of_feed l (Or.inr hlast) _).1,
      (glyphsTo_of_feed l (Or.inr hlast) _).2, Progress.run_append] at hlike
    rw [List.append_assoc] at h ⊢
    cases k with
    | zero =>
      left
      rw [(hfirst _).capturesLine_zero parts] at h ⊢
      exact h.of_following (ContinuesLike.append hrest hlike)
    | succ k =>
      rw [(hfirst _).capturesLine_succ] at h ⊢
      rcases ih hrest hlike h with hleft | ⟨fromCode', j, rfl, hright⟩
      · exact Or.inl hleft
      · refine Or.inr ⟨fromCode', j, ?_, ?_⟩
        · have hone : newlines line = 1 := (hfirst ['\n']).newlines_eq_one (by simp)
          simp only [newlines, List.count_append] at hone ⊢
          omega
        · rw [Lexer.run_append, Lexer.glyphsTo_append, (glyphsTo_of_feed l (Or.inr hlast) _).1,
            (glyphsTo_of_feed l (Or.inr hlast) _).2, Progress.run_append]
          exact hright

/-! ## The line of the return word -/

/-- A line that holds the word holds it in its statement, behind the indentation. -/
theorem exists_begun_of_word {gs lead rest : List Glyph} (parts : Parts gs)
    (hgs : gs = lead ++ (returnGlyphs ++ rest)) :
    ∃ begun more, lead = parts.indent ++ begun ∧
      parts.statement = begun ++ ("return".toList.map (⟨·, .code⟩) ++ more) ∧
      ⟨' ', .code⟩ :: rest = more ++ (parts.after ++ parts.terminator) := by
  obtain ⟨word, hword⟩ : ∃ word, word = "return".toList.map (⟨·, .code⟩ : Char → Glyph) := ⟨_, rfl⟩
  rw [← hword]
  obtain ⟨more, hreaches, hmore⟩ : ∃ more,
      parts.indent ++ parts.statement = lead ++ (word ++ more) ∧
      ⟨' ', .code⟩ :: rest = more ++ (parts.after ++ parts.terminator) := by
    have hlast : word = word.dropLast ++ [⟨'n', .code⟩] := by rw [hword]; decide
    have hsplit : gs = (lead ++ word.dropLast) ++ ⟨'n', .code⟩ :: ⟨' ', .code⟩ :: rest := by
      rw [hgs, returnGlyphs_eq, ← hword, hlast]
      simp
    obtain ⟨more, hreaches, hmore⟩ := parts.reaches hsplit (by decide)
    refine ⟨more, ?_, hmore⟩
    rw [hreaches, hlast]
    simp
  rcases List.append_eq_append_iff.mp hreaches with
    ⟨begun, hlead, hstatement⟩ | ⟨blanks, hindent, hrest⟩
  · exact ⟨begun, more, hlead, hstatement, hmore⟩
  · cases blanks with
    | nil => exact ⟨[], more, by rw [hindent]; simp, hrest.symm, hmore⟩
    | cons g blanks =>
      -- the indentation would hold the first letter of the word
      have hblank := parts.indentBlank g (by rw [hindent]; simp)
      have hg : g = ⟨'r', .code⟩ := by
        rw [hword] at hrest
        exact (List.cons.inj hrest).1.symm
      rw [hg] at hblank
      cases hblank

/-- On its line the word begins the statement, or another statement ends before it. -/
theorem not_captures_of_word {gs lead rest : List Glyph} {parts : Parts gs} {p : Progress}
    {fromCode : Bool} {f : List Glyph} (hgs : gs = lead ++ (returnGlyphs ++ rest))
    (hfeedless : ∀ g ∈ lead, g.char ≠ '\n')
    (hbegun : (p.run lead).ended = true ∨ (p.run lead).broken = true) :
    ¬Captures parts p fromCode f := by
  intro hcap
  obtain ⟨begun, more, hlead, hstatement, hmore⟩ := exists_begun_of_word parts hgs
  obtain ⟨g, behind, hhead, hg, -⟩ := hcap.head
  cases begun with
  | nil =>
    -- the statement begins with the word
    have hends : identifierEnds (more.map Glyph.char) = true := by
      cases more with
      | nil => rfl
      | cons a more =>
        rw [List.cons_append, List.cons.injEq] at hmore
        rw [← hmore.1]
        rfl
    have hform := hcap.form
    have hchars : parts.statement.map Glyph.char = "return".toList ++ more.map Glyph.char := by
      rw [hstatement, List.nil_append, List.map_append]
      rfl
    rw [hchars, isSkippedForm, opensWithKeyword_return hends] at hform
    cases hform
  | cons a begun =>
    -- another statement begins before it, so a semicolon ends that
    obtain rfl : a = g := by
      rw [hhead, List.cons_append, List.cons.injEq] at hstatement
      exact hstatement.1.symm
    have hsingle := hcap.single
    have hne : "return".toList.map (⟨·, .code⟩ : Char → Glyph) ++ more ≠ [] := List.cons_ne_nil _ _
    rw [hstatement, List.dropLast_append_of_ne_nil hne, Progress.endsWithin_append,
      Bool.or_eq_false_iff] at hsingle
    have hbegunFeedless : ∀ b ∈ begun, b.char ≠ '\n' :=
      fun b hb => hfeedless b (by rw [hlead]; simp [hb])
    obtain ⟨hended, hbroken⟩ := Progress.not_begun_of_endsWithin hg hbegunFeedless hsingle.1
    rw [hlead, Progress.run_append, hended, hbroken] at hbegun
    rcases hbegun with e | e <;> cases e

/-! ## All lines -/

theorem exists_firstLine {text : List Char} (h : text ≠ []) :
    ∃ line rest, text = line ++ rest ∧ FirstLine line rest := by
  induction text using lines_induction with
  | nil => exact absurd rfl h
  | @line line rest hline _ => exact ⟨line, rest, rfl, hline⟩

theorem not_capturesLine_of_word {l : Lexer} {p : Progress} {fromCode : Bool} {text : List Char}
    {lead rest : List Glyph} (h : l.glyphsFrom text = lead ++ (returnGlyphs ++ rest))
    (hfeedless : ∀ g ∈ lead, g.char ≠ '\n')
    (hbegun : (p.run lead).ended = true ∨ (p.run lead).broken = true) :
    ¬CapturesLine fromCode (lines (walk l p text)) 0 := by
  have hne : text ≠ [] := by
    rintro rfl
    have hword : returnGlyphs = [] :=
      (List.append_eq_nil_iff.mp (List.append_eq_nil_iff.mp h.symm).2).1
    rw [returnGlyphs_eq] at hword
    cases hword
  obtain ⟨line, behind, rfl, hline⟩ := exists_firstLine hne
  obtain ⟨parts⟩ := hline.nonempty_parts l
  rw [hline.capturesLine_zero parts]
  rw [hline.glyphsFrom, ← List.append_assoc] at h
  -- the line reaches beyond the word
  obtain ⟨more, hmore⟩ : ∃ more, l.glyphsTo line none = lead ++ (returnGlyphs ++ more) := by
    rcases List.append_eq_append_iff.mp h with ⟨more, hword, hbehind⟩ | ⟨more, hmore, -⟩
    · cases more with
      | nil => exact ⟨[], by rw [List.append_nil, ← hword.trans (List.append_nil _)]⟩
      | cons g more =>
        exfalso
        have hbehindNe : behind ≠ [] := by
          rintro rfl
          cases hbehind
        obtain ⟨init, hinit⟩ := List.getLast?_eq_some_iff.mp (hline.ended hbehindNe)
        have hmem : '\n' ∈ (lead ++ returnGlyphs).map Glyph.char := by
          rw [hword, List.map_append, Lexer.map_char_glyphsTo, hinit]
          simp
        obtain ⟨g, hg, e⟩ := List.mem_map.mp hmem
        rcases List.mem_append.mp hg with hg | hg
        · exact hfeedless g hg e
        · exact (by decide : ∀ g ∈ returnGlyphs, g.char ≠ '\n') g hg e
    · exact ⟨more, by rw [hmore, List.append_assoc]⟩
  exact not_captures_of_word hmore hfeedless hbegun

theorem continuesLike_of_isFresh {l : Lexer} {p : Progress} {text text' : List Char}
    {lead rest rest' : List Glyph} (h : l.glyphsFrom text = lead ++ rest)
    (h' : l.glyphsFrom text' = lead ++ rest') (hfresh : (p.run lead).isFresh rest = true) :
    ContinuesLike l p text text' := by
  intro hended hcontinues
  rw [h] at hcontinues
  rw [h']
  cases hany : lead.any Glyph.isSignificant with
  | true => rwa [← continuesIn_append_of_any hany]
  | false =>
    have hnot : ∀ g ∈ lead, g.isSignificant = false := by
      simpa using List.any_eq_false.mp hany
    rw [continuesIn_append_of_not hnot] at hcontinues
    rw [Progress.isFresh, p.run_ended_of_not hnot, hended, hcontinues] at hfresh
    simp at hfresh

/-- A text cut before its last line. -/
theorem exists_lastLine (text : List Char) :
    ∃ part lead, text = part ++ lead ∧ (part = [] ∨ part.getLast? = some '\n') ∧ '\n' ∉ lead := by
  refine ⟨text.rdropWhile (· ≠ '\n'), text.rtakeWhile (· ≠ '\n'),
    (List.rdropWhile_append_rtakeWhile ..).symm, ?_, fun hmem => ?_⟩
  · by_cases hnil : text.rdropWhile (· ≠ '\n') = []
    · exact Or.inl hnil
    · have hlast := List.rdropWhile_last_not (· ≠ '\n') text hnil
      rw [List.getLast?_eq_some_getLast hnil]
      exact Or.inr (congrArg some (by simpa using hlast))
  · simpa using List.mem_rtakeWhile_imp hmem

/-- A text is read from its last line on, where the glyphs before that are known. -/
theorem glyphsFrom_line {text part lead : List Char} {first leadGlyphs rest : List Glyph}
    (hpart : part = [] ∨ part.getLast? = some '\n') (hfirst : first.map Glyph.char = part)
    (hlead : leadGlyphs.map Glyph.char = lead) (h : glyphs text = (first ++ leadGlyphs) ++ rest) :
    text = part ++ (lead ++ rest.map Glyph.char) ∧ first = Lexer.initial.glyphsTo part none ∧
      (Lexer.initial.run part none).glyphsFrom (lead ++ rest.map Glyph.char) =
        leadGlyphs ++ rest := by
  rw [glyphs, Lexer.glyphsFrom_eq_glyphsTo, List.append_assoc] at h
  obtain ⟨htext, hbefore, hrest⟩ := Lexer.glyphsTo_eq_append h
  rw [hfirst, List.map_append, hlead] at htext hbefore hrest
  obtain ⟨hglyphs, hrun⟩ := glyphsTo_of_feed Lexer.initial hpart
    ((lead ++ rest.map Glyph.char).head?.or none)
  rw [hglyphs] at hbefore
  rw [hrun, ← Lexer.glyphsFrom_eq_glyphsTo] at hrest
  exact ⟨htext, hbefore, hrest.symm⟩

namespace Returned

variable {source : List Char} {s : LastStatement} {before body dropped trailing : List Glyph}
  {semicolon : Glyph}

/-- On a line behind the one of the return word, a statement that a call could wrap begins only
at a detached semicolon. -/
theorem atDetachedSemicolon_of_later {first lead behind rest : List Glyph} {g : Glyph}
    (h : Returned source s (first ++ lead) body dropped semicolon trailing)
    (hlead : newlines (lead.map Glyph.char) = 0)
    (hsplit : glyphs s.returned = (first ++ behind) ++ g :: rest)
    (hbehind : newlines (behind.map Glyph.char) ≠ 0) (hg : g.isSignificant = true)
    (hfresh : (Progress.initial.run (first ++ behind)).isFresh (g :: rest) = true)
    (hform : (∀ a ∈ rest, a.isSignificant = false) → isSkippedForm [g.char] = false) :
    atDetachedSemicolon source (newlines ((first ++ behind).map Glyph.char)) = true := by
  rcases h.of_isFresh hsplit hg hfresh with ⟨more, hmore⟩ | hbefore | hat | ⟨-, rfl, rfl⟩
  · rw [List.append_assoc, List.append_cancel_left_eq] at hmore
    rw [hmore] at hlead
    simp only [newlines, List.map_append, List.count_append] at hlead hbehind
    omega
  · rw [List.append_cancel_left_eq] at hbefore
    rw [hbefore] at hbehind
    exact absurd hlead hbehind
  · exact hat
  · have := hform h.trailingNot
    rw [h.char] at this
    exact absurd this (by decide)

/-- A line of the returned text is captured only if it is one of the script that is, or at a
detached semicolon. -/
theorem of_captured (h : Returned source s before body dropped semicolon trailing) {k : Nat}
    (hcap : CapturesLine true (lines (cells s.returned)) k) :
    CapturesLine true (lines (cells source)) k ∨ atDetachedSemicolon source k = true := by
  obtain ⟨part, lead, hsplit, hpart, hlead⟩ := exists_lastLine (before.map Glyph.char)
  obtain ⟨first, leadGlyphs, rfl, hfirst, hleadGlyphs⟩ := List.map_eq_append_iff.mp hsplit
  obtain ⟨l, hl⟩ : ∃ l, l = Lexer.initial.run part none := ⟨_, rfl⟩
  have hfeedless : ∀ g ∈ leadGlyphs, g.char ≠ '\n' := by
    intro g hg e
    refine hlead ?_
    rw [← hleadGlyphs, ← e]
    exact List.mem_map_of_mem hg
  -- both texts are read alike up to the line of the return statement
  have hread {text : List Char} {rest : List Glyph}
      (hglyphs : glyphs text = (first ++ leadGlyphs) ++ rest) :=
    glyphsFrom_line hpart hfirst hleadGlyphs hglyphs
  rw [← hl] at hread
  obtain ⟨hsource, hfirstEq, hsourceGlyphs⟩ := hread h.source
  obtain ⟨hreturned, -, hreturnedGlyphs⟩ := hread h.returned
  obtain ⟨p, hp⟩ : ∃ p, p = Progress.initial.run first := ⟨_, rfl⟩
  have hbegun := h.ended_or_broken
  rw [Progress.run_append, ← hp] at hbegun
  have hbegins := h.begins
  rw [Progress.run_append, ← hp] at hbegins
  have hlike := continuesLike_of_isFresh hsourceGlyphs hreturnedGlyphs hbegins
  rw [hp, hfirstEq, hl] at hlike
  rw [← walk_initial, hreturned] at hcap
  rw [← walk_initial]
  conv => lhs; rw [hsource]
  rcases capturesLine_append hpart hlike hcap with hleft | ⟨fromCode, j, rfl, hright⟩
  · exact Or.inl hleft
  right
  rw [← hl, ← hfirstEq, ← hp] at hright
  cases j with
  | zero => exact (not_capturesLine_of_word hreturnedGlyphs hfeedless hbegun hright).elim
  | succ j =>
    -- a statement begins on the line, behind the return word
    obtain ⟨behind, g, rest, hglyphs, hcount, hg, hfresh, hform⟩ := exists_of_capturesLine hright
    rw [hreturnedGlyphs] at hglyphs
    have hreturnedSplit : glyphs s.returned = (first ++ behind) ++ g :: rest := by
      rw [h.returned, List.append_assoc, hglyphs, List.append_assoc]
    rw [hp, ← Progress.run_append] at hfresh
    have hat := h.atDetachedSemicolon_of_later (Spot.newlines_eq_zero_of_feedless hfeedless)
      hreturnedSplit (by rw [hcount]; exact Nat.succ_ne_zero j) hg hfresh hform
    rw [newlines] at hcount
    rwa [List.map_append, hfirst, newlines, List.count_append, hcount] at hat

end Returned

/-- A line of a returned text is captured only if it is one of the script that is, or at a
detached semicolon. -/
theorem capturesLine_of_returnLast {source : List Char} {k : Nat}
    (h : CapturesLine true (lines (cells (returnLast source).text)) k) :
    CapturesLine true (lines (cells source)) k ∨ atDetachedSemicolon source k = true := by
  rcases returnLast_cases source with ⟨s, hs, hreturnable, e⟩ | e
  · rw [e] at h
    obtain ⟨before, body, dropped, semicolon, trailing, hread⟩ :=
      exists_returned hs (isReturnable_iff.mp hreturnable).2
    exact hread.of_captured h
  · rw [e] at h
    exact Or.inl h

end SnippetRunner.Script
