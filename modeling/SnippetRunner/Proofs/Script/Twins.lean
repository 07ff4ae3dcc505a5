import SnippetRunner.Proofs.Script.ReturnedLines
import SnippetRunner.Proofs.Script.VeiledLine

/-
  Two texts that differ in their comments only, line by line. Each line of the one is read in the
  state in which that of the other is read, but for comments, and looks the same behind the veil;
  so both are captured or neither is. The exception is a line comment in front of a carriage
  return: it takes the carriage return with it, and with that the line end begins in a comment.
-/
namespace SnippetRunner.Script

open SnippetRunner.Text SnippetRunner.Source

/-- The line feed of the line end is code, but the carriage return before it is comment text. -/
def Line.returnsInComment (line : Line) : Bool :=
  line.terminator.head?.any Cell.isComment && line.terminator.getLast?.any Cell.isCode

/-- What the expression of the line says outside comments. -/
def Line.code (line : Line) : List Char :=
  uncommented ((line.statement.take line.expression.length).map Cell.glyph)

/-! ## Two lines -/

namespace Parts

variable {gs hs : List Glyph}

/-- The line end is code, but its carriage return is comment text. -/
def returnsInComment (parts : Parts gs) : Bool :=
  parts.terminator.head?.any Glyph.isComment && parts.terminator.getLast?.any Glyph.isCode

theorem returnsInComment_eq (parts : Parts gs) (p : Progress) (f : List Glyph) :
    (Line.ofPiece (p.cellsTo gs f)).returnsInComment = parts.returnsInComment := by
  have hterminator : (Line.ofPiece (p.cellsTo gs f)).terminator.map Cell.glyph =
      parts.terminator := by
    rw [parts.line_eq, Progress.map_glyph_cellsTo]
  rw [Line.returnsInComment, returnsInComment, ← hterminator, List.head?_map, List.getLast?_map,
    Option.any_map, Option.any_map]
  rfl

theorem code_eq (parts : Parts gs) (p : Progress) (f : List Glyph) :
    (Line.ofPiece (p.cellsTo gs f)).code = parts.code := by
  rw [Line.code, parts.expression_eq, List.map_take, parts.statement_eq,
    Progress.map_glyph_cellsTo]
  rfl

/-- On a line that begins in code no comment is part of the indentation. -/
theorem indent_code {l : Lexer} {line : List Char} (parts : Parts gs)
    (hgs : gs = l.glyphsTo line none) (hmode : l.mode = .code) :
    ∀ g ∈ parts.indent, g.isComment = false := by
  obtain ⟨-, hindent, -⟩ := Lexer.glyphsTo_eq_append (hgs.symm.trans parts.join_statement)
  rw [(Lexer.plain_code hmode parts.isPlain_indent _).1] at hindent
  intro g hg
  rw [hindent] at hg
  obtain ⟨c, -, rfl⟩ := List.mem_map.mp hg
  rfl

/-- What two lines share that differ in their comments only. -/
structure Same (parts : Parts gs) (parts' : Parts hs) : Prop where
  indent : parts.indent = parts'.indent
  body : inComments.veil parts.body = inComments.veil parts'.body
  terminator : parts.terminator = parts'.terminator
  captures : ∀ p fromCode f f', inComments.veil f = inComments.veil f' →
    (Captures parts p fromCode f ↔ Captures parts' p fromCode f')

theorem Same.code {parts : Parts gs} {parts' : Parts hs} (h : Same parts parts') :
    parts.code = parts'.code := by
  rw [Parts.code, Parts.code, ← uncommented_veil, h.body, uncommented_veil]

theorem same_of_veil {parts : Parts gs} {parts' : Parts hs} (hchain : gs.IsChain Borders)
    (hchain' : hs.IsChain Borders) (hveil : inComments.veil gs = inComments.veil hs)
    (hindent : ∀ g ∈ parts.indent, g.isComment = false)
    (hindent' : ∀ g ∈ parts'.indent, g.isComment = false)
    (hterminator : ∀ g ∈ parts.terminator, inComments.hides g = false)
    (hterminator' : ∀ g ∈ parts'.terminator, inComments.hides g = false) :
    Same parts parts' := by
  obtain ⟨a, ha⟩ : ∃ a, a = parts.veil hindent hterminator := ⟨_, rfl⟩
  obtain ⟨b, hb⟩ : ∃ b, b = parts'.veil hindent' hterminator' := ⟨_, rfl⟩
  have hunique : a.cast hveil = b := unique _ _
  have hcast (p : Progress) (fromCode : Bool) (f : List Glyph) :
      Captures (a.cast hveil) p fromCode f ↔ Captures a p fromCode f := by
    clear hunique b hb ha
    generalize inComments.veil hs = us at hveil
    subst hveil
    rfl
  exact {
    indent := by
      have h := congrArg Parts.indent hunique
      rw [hb] at h
      subst ha
      exact h
    body := by
      rw [← parts.body_veil hindent hterminator hchain,
        ← parts'.body_veil hindent' hterminator' hchain', ← ha, ← hb, ← hunique]
      rfl
    terminator := by
      have h := congrArg Parts.terminator hunique
      rw [hb] at h
      subst ha
      exact h
    captures := by
      intro p fromCode f f' hf
      rw [← parts.captures_veil hindent hterminator hchain,
        ← parts'.captures_veil hindent' hterminator' hchain', ← ha, ← hb, ← hunique, hcast, hf] }

end Parts

/-! ## Two texts -/

/-- Two texts that look the same behind the veil, each read from the state in which the lexer
reaches it. -/
structure Twins (l m : Lexer) (s t : List Char) : Prop where
  ready : l.Ready s.head?
  ready' : m.Ready t.head?
  settled : l.settled = m.settled
  veil : inComments.veil (l.glyphsFrom s) = inComments.veil (m.glyphsFrom t)

theorem veil_newline {g : Glyph} (h : decide (g.char = '\n') = true) :
    ∃ b, inComments.seen g = [b] ∧ decide (b.char = '\n') = true :=
  ⟨g, Cover.seen_of_not (not_hides_of_newline (of_decide_eq_true h)), h⟩

/-- The veil leaves the lines of a text. -/
theorem splitAfter_veil (gs : List Glyph) :
    splitAfter (·.char = '\n') (inComments.veil gs) =
      (splitAfter (·.char = '\n') gs).map inComments.veil := by
  refine splitAfter_flatMap (Cover.seen_ne_nil _) (fun g hg b hb => ?_) fun g _ hg =>
    veil_newline hg
  cases hides : inComments.hides g with
  | true => simpa using (mark_of_hides hides b hb).2
  | false =>
    rw [Cover.seen_of_not hides, List.mem_singleton] at hb
    rwa [hb]

namespace Twins

variable {l m : Lexer} {s t line line' rest : List Char}

theorem symm (h : Twins l m s t) : Twins m l t s :=
  ⟨h.ready', h.ready, h.settled.symm, h.veil.symm⟩

theorem eq_nil (h : Twins l m [] t) : t = [] := by
  have hveil := h.veil
  rw [Lexer.glyphsFrom, Cover.veil_nil, eq_comm, Cover.veil_eq_nil] at hveil
  rw [← Lexer.map_char_glyphsFrom m t, hveil]
  rfl

/-- In code there is no difference between the states. -/
theorem eq (h : Twins l m s t) (hl : l.mode = .code) (hm : m.mode = .code) : l = m := by
  rw [← Lexer.settled_of_not (l := l) (by rw [hl]; rfl), h.settled,
    Lexer.settled_of_not (by rw [hm]; rfl)]

theorem chain (h : Twins l m s t) : (l.glyphsTo s none).IsChain Borders := by
  rw [← Lexer.glyphsFrom_eq_glyphsTo]
  exact Lexer.isChain_glyphsFrom h.ready

theorem veil_glyphsTo (h : Twins l m s t) :
    inComments.veil (l.glyphsTo s none) = inComments.veil (m.glyphsTo t none) := by
  rw [← Lexer.glyphsFrom_eq_glyphsTo, ← Lexer.glyphsFrom_eq_glyphsTo, h.veil]

/-- The first lines of both texts are twins, and so is what follows them. -/
theorem exists_firstLine (h : Twins l m (line ++ rest) t) (hline : FirstLine line rest) :
    ∃ line' rest', t = line' ++ rest' ∧ FirstLine line' rest' ∧ Twins l m line line' ∧
      Twins (l.run line none) (m.run line' none) rest rest' := by
  have hne : line ≠ [] := hline.cut.ne_nil (List.mem_singleton_self _)
  obtain ⟨line', rest', rfl, hline'⟩ := Script.exists_firstLine fun (hnil : t = []) => by
    rw [hnil] at h
    exact hne (List.append_eq_nil_iff.mp h.symm.eq_nil).1
  have hne' : line' ≠ [] := hline'.cut.ne_nil (List.mem_singleton_self _)
  have hsplit := congrArg (splitAfter (·.char = '\n')) h.veil
  rw [splitAfter_veil, splitAfter_veil, hline.splitAfter_glyphsFrom, hline'.splitAfter_glyphsFrom,
    List.map_cons, List.map_cons, List.cons.injEq] at hsplit
  obtain ⟨hfirst, hlater⟩ := hsplit
  have hrest := congrArg List.flatten hlater
  rw [← splitAfter_veil, ← splitAfter_veil, flatten_splitAfter, flatten_splitAfter] at hrest
  have hready : l.Ready line.head? := by
    have hready := h.ready
    rwa [List.head?_append_of_ne_nil _ hne] at hready
  have hready' : m.Ready line'.head? := by
    have hready := h.ready'
    rwa [List.head?_append_of_ne_nil _ hne'] at hready
  have hnext {l : Lexer} {line rest : List Char} (hline : FirstLine line rest)
      (hready : l.Ready (line ++ rest).head?) : (l.run line none).Ready rest.head? := by
    have hrun := hline.run (l := l) none
    rw [Option.or_none] at hrun
    rw [← hrun]
    exact Lexer.ready_run (by rwa [← List.head?_append])
  have hhere : Twins l m line line' := by
    refine ⟨hready, hready', h.settled, ?_⟩
    rw [Lexer.glyphsFrom_eq_glyphsTo, Lexer.glyphsFrom_eq_glyphsTo]
    exact hfirst
  refine ⟨line', rest', rfl, hline', hhere, hnext hline h.ready, hnext hline' h.ready', ?_, hrest⟩
  rw [Lexer.settled_run, Lexer.settled_run, ← uncommented_veil, hfirst, uncommented_veil, h.settled]

end Twins

/-! ## What is captured -/

/-- No mark of the veil stands in the line end of a captured line. -/
theorem Captures.terminator_seen {gs : List Glyph} {parts : Parts gs} {p : Progress}
    {fromCode : Bool} {f : List Glyph} (h : Captures parts p fromCode f) :
    ∀ g ∈ parts.terminator, inComments.hides g = false := by
  intro g hg
  have hcode := h.endsInCode
  rcases parts.terminated with ht | ⟨feed, hn, ⟨ht, -⟩ | ⟨ret, hr, ht⟩⟩
  · rw [ht] at hg
    cases hg
  · rw [ht, List.mem_singleton] at hg
    rw [hg, not_hides_of_newline hn]
  · rw [ht, List.head?_cons, Option.all_some] at hcode
    rw [ht] at hg
    rcases List.mem_cons.mp hg with rfl | hg
    · exact not_hides_of_not_isComment (Glyph.not_isComment_of_isCode hcode)
    · rw [List.mem_singleton.mp hg, not_hides_of_newline hn]

theorem Captures.not_returnsInComment {gs : List Glyph} {parts : Parts gs} {p : Progress}
    {fromCode : Bool} {f : List Glyph} (h : Captures parts p fromCode f) :
    parts.returnsInComment = false := by
  have hcode := h.endsInCode
  rw [Parts.returnsInComment]
  cases hhead : parts.terminator.head? with
  | none => rfl
  | some g =>
    rw [hhead, Option.all_some] at hcode
    rw [Option.any_some, Glyph.not_isComment_of_isCode hcode]
    rfl

namespace Twins

variable {l m : Lexer} {line line' : List Char} {parts : Parts (l.glyphsTo line none)}
  {parts' : Parts (m.glyphsTo line' none)} {p : Progress} {fromCode : Bool} {f f' : List Glyph}

/-- The twin of a captured line has no mark in its line end either, unless that is a carriage
return in a line comment. -/
theorem terminator_seen (h : Twins l m line line') (hcap : Captures parts p fromCode f)
    (hreturn : parts'.returnsInComment = false) :
    ∀ g ∈ parts'.terminator, inComments.hides g = false := by
  intro g hg
  rcases parts'.terminated with ht | ⟨feed, hn, ⟨ht, -⟩ | ⟨ret, hr, ht⟩⟩
  · rw [ht] at hg
    cases hg
  · rw [ht, List.mem_singleton] at hg
    rw [hg, not_hides_of_newline hn]
  · rw [ht] at hg
    rcases List.mem_cons.mp hg with rfl | hg
    · by_contra hides
      have hcomment := (hides_iff.mp (by simpa using hides)).1
      -- the line feed is seen, so the captured line has it too, and there it is code
      have hlast : (m.glyphsTo line' none).getLast? = some feed := by
        rw [parts'.getLast?_of_terminator (by rw [ht]; simp), ht]
        rfl
      have hseen := getLast?_veil hlast (not_hides_of_newline hn)
      rw [← h.veil_glyphsTo] at hseen
      have hlast := (of_getLast?_veil hseen).resolve_right (by rw [hn]; decide)
      have hterm := parts.terminator_ne_nil (by rw [hlast, Option.map_some, hn])
      have hcode := (parts.ends_in_code rfl hterm hcap.endsInCode).2
      rw [← parts.getLast?_of_terminator hterm, hlast, Option.all_some] at hcode
      simp [Parts.returnsInComment, ht, hcomment, hcode] at hreturn
    · rw [List.mem_singleton.mp hg, not_hides_of_newline hn]

/-- What a captured line and its twin share. -/
theorem same (h : Twins l m line line') (hmodes : l.mode = .code ∧ m.mode = .code)
    (hreturn : parts.returnsInComment = parts'.returnsInComment)
    (hcap : Captures parts p fromCode f) : Parts.Same parts parts' :=
  Parts.same_of_veil h.chain h.symm.chain h.veil_glyphsTo (parts.indent_code rfl hmodes.1)
    (parts'.indent_code rfl hmodes.2) hcap.terminator_seen
    (h.terminator_seen hcap (hreturn.symm.trans hcap.not_returnsInComment))

theorem captures_of_captures (h : Twins l m line line')
    (hmodes : fromCode = true → l.mode = .code ∧ m.mode = .code)
    (hreturn : parts.returnsInComment = parts'.returnsInComment)
    (hf : inComments.veil f = inComments.veil f') (hcap : Captures parts p fromCode f) :
    Captures parts' p fromCode f' :=
  ((h.same (hmodes hcap.fromCode) hreturn hcap).captures p fromCode f f' hf).mp hcap

/-- Both lines are captured, or neither is. -/
theorem captures_iff (h : Twins l m line line')
    (hmodes : fromCode = true → l.mode = .code ∧ m.mode = .code)
    (hreturn : parts.returnsInComment = parts'.returnsInComment)
    (hf : inComments.veil f = inComments.veil f') :
    Captures parts p fromCode f ↔ Captures parts' p fromCode f' :=
  ⟨h.captures_of_captures hmodes hreturn hf,
    h.symm.captures_of_captures (fun hcode => (hmodes hcode).symm) hreturn.symm hf.symm⟩

end Twins

end SnippetRunner.Script
