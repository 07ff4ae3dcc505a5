import SnippetRunner.Proofs.Script.CommentedScript
import SnippetRunner.Proofs.Script.Rereturn

/-
  The two passes over a script as edits. Both read the script once, from left to right: they copy
  characters, write some of their own between them, and leave out blanks, semicolons and what is not
  significant. Whatever is significant and copied is in the region in which it was, in the bytes as
  in the characters.
-/
namespace SnippetRunner.Script

open SnippetRunner.Text SnippetRunner.Source

/-! ## Edits -/

/-- One step of a pass: it copies a character, writes one of its own, or leaves one out. -/
inductive Edit where
  | keep (c : Char)
  | write (c : Char)
  | drop (c : Char)
  deriving DecidableEq, Repr

namespace Edit

/-- What is read in a step. -/
def read : Edit → List Char
  | keep c | drop c => [c]
  | write _ => []

/-- What a step writes, its own or copied. -/
def written : Edit → List Char
  | keep c | write c => [c]
  | drop _ => []

/-- The step on the bytes of the text. -/
def bytes : Edit → List Edit
  | keep c => (bytesOf [c]).map keep
  | write c => (bytesOf [c]).map write
  | drop c => (bytesOf [c]).map drop

end Edit

/-- The edits make `output` from `source`. A byte stands behind what the edits before it have read,
or written, so what is copied keeps its order. It is in the same region in both texts, unless it is
significant in neither. Only blanks, semicolons and characters that are not significant are left
out. -/
structure KeepsRegions (source output : List Char) (edits : List Edit) : Prop where
  reads : edits.flatMap Edit.read = source
  writes : edits.flatMap Edit.written = output
  kept : ∀ {before b after}, edits.flatMap Edit.bytes = before ++ .keep b :: after →
    ∃ g h, (byteGlyphs source)[(before.flatMap Edit.read).length]? = some g ∧
      (byteGlyphs output)[(before.flatMap Edit.written).length]? = some h ∧
      g.char = b ∧ h.char = b ∧
      (g.isSignificant = true ∨ h.isSignificant = true → h.region = g.region)
  dropped : ∀ {before c after}, edits = before ++ .drop c :: after →
    ∃ g, (glyphs source)[(before.flatMap Edit.read).length]? = some g ∧ g.char = c ∧
      g.isSlight = true

/-- The edits make the glyphs `hs` from `gs`. They change no region of what is significant, and
leave out what is `spare`. -/
inductive Carries (spare : Glyph → Prop) : List Edit → List Glyph → List Glyph → Prop
  | nil : Carries spare [] [] []
  | keep {edits : List Edit} {gs hs : List Glyph} {c : Char} {g h : Glyph} (hg : g.char = c)
      (hh : h.char = c)
      (same : g.isSignificant = true ∨ h.isSignificant = true → h.region = g.region)
      (rest : Carries spare edits gs hs) : Carries spare (.keep c :: edits) (g :: gs) (h :: hs)
  | write {edits : List Edit} {gs hs : List Glyph} {c : Char} {h : Glyph} (hh : h.char = c)
      (rest : Carries spare edits gs hs) : Carries spare (.write c :: edits) gs (h :: hs)
  | drop {edits : List Edit} {gs hs : List Glyph} {c : Char} {g : Glyph} (hg : g.char = c)
      (left : spare g) (rest : Carries spare edits gs hs) :
      Carries spare (.drop c :: edits) (g :: gs) hs

namespace Carries

variable {spare : Glyph → Prop} {edits more before after : List Edit}
  {gs hs gs' hs' : List Glyph}

theorem append (h : Carries spare edits gs hs) (h' : Carries spare more gs' hs') :
    Carries spare (edits ++ more) (gs ++ gs') (hs ++ hs') := by
  induction h with
  | nil => exact h'
  | keep hg hh same _ ih => exact .keep hg hh same ih
  | write hh _ ih => exact .write hh ih
  | drop hg left _ ih => exact .drop hg left ih

theorem kept (spare : Glyph → Prop) (gs : List Glyph) :
    Carries spare ((gs.map Glyph.char).map .keep) gs gs := by
  induction gs with
  | nil => exact .nil
  | cons g gs ih => exact .keep rfl rfl (fun _ => rfl) ih

theorem written (hs : List Glyph) : Carries spare ((hs.map Glyph.char).map .write) [] hs := by
  induction hs with
  | nil => exact .nil
  | cons h hs ih => exact .write rfl ih

theorem dropped (hgs : ∀ g ∈ gs, spare g) :
    Carries spare ((gs.map Glyph.char).map .drop) gs [] := by
  induction gs with
  | nil => exact .nil
  | cons g gs ih =>
    exact .drop rfl (hgs g (List.mem_cons_self ..))
      (ih fun a ha => hgs a (List.mem_cons_of_mem _ ha))

/-- What is significant neither before nor after may change its region. -/
theorem copied (hchar : hs.map Glyph.char = gs.map Glyph.char)
    (hgs : ∀ g ∈ gs, g.isSignificant = false) (hhs : ∀ h ∈ hs, h.isSignificant = false) :
    Carries spare ((gs.map Glyph.char).map .keep) gs hs := by
  induction gs generalizing hs with
  | nil =>
    obtain rfl := List.map_eq_nil_iff.mp hchar
    exact .nil
  | cons g gs ih =>
    obtain ⟨h, hs, rfl, hh, hrest⟩ := List.map_eq_cons_iff.mp hchar
    refine .keep rfl hh (fun hsig => ?_) (ih hrest
      (fun a ha => hgs a (List.mem_cons_of_mem _ ha)) fun a ha => hhs a (List.mem_cons_of_mem _ ha))
    rw [hgs g (List.mem_cons_self ..), hhs h (List.mem_cons_self ..)] at hsig
    rcases hsig with hsig | hsig <;> cases hsig

/-- Of slight characters, the line ends may be copied to where nothing is significant. -/
theorem feeds (hgs : ∀ g ∈ gs, spare g)
    (hchar : hs.map Glyph.char = (gs.map Glyph.char).filter (· = '\n')) :
    Carries spare ((gs.map Glyph.char).map fun c => if c = '\n' then .keep c else .drop c) gs
      hs := by
  have hfeed {g : Glyph} (h : g.char = '\n') : g.isSignificant = false :=
    Glyph.not_significant_of_isAsciiBlank (by rw [h]; decide)
  induction gs generalizing hs with
  | nil =>
    obtain rfl := List.map_eq_nil_iff.mp hchar
    exact .nil
  | cons g gs ih =>
    have hrest := fun a ha => hgs a (List.mem_cons_of_mem _ ha)
    rw [List.map_cons] at hchar ⊢
    by_cases hg : g.char = '\n'
    · rw [List.filter_cons_of_pos (by simpa using hg)] at hchar
      obtain ⟨h, hs, rfl, hh, hchars⟩ := List.map_eq_cons_iff.mp hchar
      rw [List.map_cons, if_pos hg]
      refine .keep rfl hh (fun hsig => ?_) (ih hrest hchars)
      rw [hfeed hg, hfeed (hh.trans hg)] at hsig
      rcases hsig with hsig | hsig <;> cases hsig
    · rw [List.filter_cons_of_neg (by simpa using hg)] at hchar
      rw [List.map_cons, if_neg hg]
      exact .drop rfl (hgs g (List.mem_cons_self ..)) (ih hrest hchar)

theorem reads (h : Carries spare edits gs hs) :
    edits.flatMap Edit.read = gs.map Glyph.char := by
  induction h with
  | nil => rfl
  | keep hg _ _ _ ih => rw [List.flatMap_cons, ih, List.map_cons, hg]; rfl
  | write _ _ ih => rw [List.flatMap_cons, ih]; rfl
  | drop hg _ _ ih => rw [List.flatMap_cons, ih, List.map_cons, hg]; rfl

theorem writes (h : Carries spare edits gs hs) :
    edits.flatMap Edit.written = hs.map Glyph.char := by
  induction h with
  | nil => rfl
  | keep _ hh _ _ ih => rw [List.flatMap_cons, ih, List.map_cons, hh]; rfl
  | write hh _ ih => rw [List.flatMap_cons, ih, List.map_cons, hh]; rfl
  | drop _ _ _ ih => rw [List.flatMap_cons, ih]; rfl

/-- The edits in front of a place make what stands there in front of what is left. -/
theorem split (h : Carries spare (before ++ after) gs hs) :
    Carries spare after (gs.drop (before.flatMap Edit.read).length)
      (hs.drop (before.flatMap Edit.written).length) := by
  induction before generalizing gs hs with
  | nil => exact h
  | cons edit before ih =>
    rw [List.flatMap_cons, List.flatMap_cons, List.length_append, List.length_append]
    cases h with
    | keep hg hh same rest =>
      rw [Nat.add_comm, Nat.add_comm (Edit.written _).length]
      exact ih rest
    | write hh rest =>
      rw [Nat.add_comm (Edit.written _).length, Edit.read, List.length_nil, Nat.zero_add]
      exact ih rest
    | drop hg left rest =>
      rw [Nat.add_comm, Edit.written, List.length_nil, Nat.zero_add]
      exact ih rest

theorem of_keep {c : Char} (h : Carries spare (.keep c :: edits) gs hs) :
    ∃ g gs', gs = g :: gs' ∧ ∃ k hs', hs = k :: hs' ∧ g.char = c ∧ k.char = c ∧
      (g.isSignificant = true ∨ k.isSignificant = true → k.region = g.region) := by
  cases h with
  | keep hg hh same _ => exact ⟨_, _, rfl, _, _, rfl, hg, hh, same⟩

theorem of_drop {c : Char} (h : Carries spare (.drop c :: edits) gs hs) :
    ∃ g gs', gs = g :: gs' ∧ g.char = c ∧ spare g := by
  cases h with
  | drop hg left _ => exact ⟨_, _, rfl, hg, left⟩

/-- The bytes of characters are carried as the characters are. -/
theorem bytes (h : Carries spare edits gs hs) :
    Carries (fun _ => True) (edits.flatMap Edit.bytes) (gs.flatMap Glyph.bytes)
      (hs.flatMap Glyph.bytes) := by
  have hchars (g : Glyph) : g.bytes.map Glyph.char = bytesOf [g.char] := by
    simp [Glyph.bytes, Function.comp_def]
  induction h with
  | nil => exact .nil
  | @keep edits gs hs c g h hg hh same rest ih =>
    have hread : Edit.bytes (.keep c) = (g.bytes.map Glyph.char).map .keep := by
      rw [hchars, hg, Edit.bytes]
    rw [List.flatMap_cons, List.flatMap_cons, List.flatMap_cons, hread]
    refine .append ?_ ih
    by_cases hsig : g.isSignificant = true ∨ h.isSignificant = true
    · obtain rfl : h = g := by
        cases g
        cases h
        simp_all
      exact kept _ _
    · rw [not_or, Bool.not_eq_true, Bool.not_eq_true] at hsig
      refine copied (by rw [hchars, hchars, hg, hh]) (fun b hb => ?_) fun b hb => ?_
      · rw [Glyph.isSignificant_of_mem_bytes hb, hsig.1]
      · rw [Glyph.isSignificant_of_mem_bytes hb, hsig.2]
  | @write edits gs hs c h hh rest ih =>
    have hwritten : Edit.bytes (.write c) = (h.bytes.map Glyph.char).map .write := by
      rw [hchars, hh, Edit.bytes]
    rw [List.flatMap_cons, List.flatMap_cons, hwritten]
    exact .append (written _) ih
  | @drop edits gs hs c g hg left rest ih =>
    have hread : Edit.bytes (.drop c) = (g.bytes.map Glyph.char).map .drop := by
      rw [hchars, hg, Edit.bytes]
    rw [List.flatMap_cons, List.flatMap_cons, hread]
    exact .append (dropped fun _ _ => trivial) ih

theorem keepsRegions {source output : List Char}
    (h : Carries (Glyph.isSlight ·) edits (glyphs source) (glyphs output)) :
    KeepsRegions source output edits := by
  refine ⟨by rw [h.reads, map_char_glyphs], by rw [h.writes, map_char_glyphs], ?_, ?_⟩
  · intro before b after hedits
    have hbytes := h.bytes
    rw [← byteGlyphs_eq, ← byteGlyphs_eq, hedits] at hbytes
    obtain ⟨g, gs, hg, k, hs, hk, hchar, hchar', hsame⟩ := hbytes.split.of_keep
    rw [← List.head?_drop, ← List.head?_drop, hg, hk]
    exact ⟨g, k, rfl, rfl, hchar, hchar', hsame⟩
  · rintro before c after rfl
    obtain ⟨g, gs, hg, hchar, hslight⟩ := h.split.of_drop
    rw [← List.head?_drop, hg]
    exact ⟨g, rfl, hchar, hslight⟩

end Carries

/-! ## The capture pass -/

/-- The edits of the capture pass on a line. -/
def lineEdits (number : Nat) (fromCode : Bool) (line : Line) (following : List Line) : List Edit :=
  match line.expression? fromCode following with
  | some expression =>
    (line.indent.map Cell.char).map .keep ++ (callStart.map .write ++ (expression.map .keep ++
      (((line.content.map Cell.char).drop (line.indent.length + expression.length)).map .drop ++
        ((callEnd number ++ [';']).map .write ++ (line.terminator.map Cell.char).map .keep))))
  | none => line.text.map .keep

/-- The edits of the capture pass on lines from `number` on. -/
def captureEditsFrom (number : Nat) (fromCode : Bool) : List Line → List Edit
  | [] => []
  | line :: following =>
    lineEdits number fromCode line following
      ++ captureEditsFrom (number + 1) (line.cells.getLast?.all Cell.isCode) following

/-- The edits of the capture pass on a script. -/
def captureEdits (source : List Char) : List Edit := captureEditsFrom 1 true (lines (cells source))

/-- What follows the expression of a line is slight. -/
theorem Parts.slight_behind {gs spare : List Glyph} (parts : Parts gs)
    (hspare : ∀ g ∈ spare, isBlank g.char = true ∨ g.char = ';') :
    ∀ g ∈ spare ++ (parts.after ++ parts.terminator), g.isSlight = true := by
  intro g hg
  rcases List.mem_append.mp hg with hg | hg
  · rcases hspare g hg with hb | hb <;> simp [Glyph.isSlight, hb]
  · simp [Glyph.isSlight, parts.rest_not g hg]

/-- The edits that make a captured line. -/
def Parts.edits {gs : List Glyph} (parts : Parts gs) (number : Nat) : List Edit :=
  (parts.indent.map Glyph.char).map .keep ++ (callStart.map .write ++
    (parts.expression.map .keep ++
      (((parts.content.map Glyph.char).drop
          (parts.indent.length + parts.expression.length)).map .drop ++
        ((callEnd number ++ [';']).map .write ++ (parts.terminator.map Glyph.char).map .keep))))

/-- In a call around the expression of a line all is in its region that was in one. -/
theorem Parts.carries {gs start close ending : List Glyph} (parts : Parts gs) (number : Nat)
    (hstart : start.map Glyph.char = callStart)
    (hclose : close.map Glyph.char = callEnd number ++ [';'])
    (hending : ending.map Glyph.char = parts.terminator.map Glyph.char) :
    Carries (Glyph.isSlight ·) (parts.edits number) gs
      (parts.indent ++ (start ++ (parts.body ++ (close ++ ending)))) := by
  obtain ⟨spare, hstatement, hbody, hspare⟩ := parts.exists_spare
  have hdropped : (parts.content.map Glyph.char).drop
      (parts.indent.length + parts.expression.length) = (spare ++ parts.after).map Glyph.char := by
    have hcontent : parts.content = (parts.indent ++ parts.body) ++ (spare ++ parts.after) := by
      rw [Parts.content, hstatement]
      simp only [List.append_assoc]
    rw [hcontent, List.map_append, ← hbody]
    exact List.drop_left' (by simp)
  have hslight : ∀ g ∈ spare ++ parts.after, g.isSlight = true := fun g hg =>
    parts.slight_behind hspare g (by
      rw [← List.append_assoc]
      exact List.mem_append_left _ hg)
  have hcarries := (Carries.kept (Glyph.isSlight ·) parts.indent).append
    ((Carries.written start).append ((Carries.kept _ parts.body).append
      ((Carries.dropped hslight).append ((Carries.written close).append
        (Carries.copied hending parts.terminator_not (parts.lineEnd_not hending))))))
  have hjoin := parts.join_body hstatement
  rw [hstart, hbody, hclose, ← hdropped] at hcarries
  simp only [List.nil_append, List.append_assoc, ← hjoin] at hcarries
  exact hcarries

section

variable {l : Lexer} {p : Progress} {line rest : List Char} {fromCode : Bool}

/-- The edits of a captured line. -/
theorem FirstLine.lineEdits_captured (h : FirstLine line rest)
    (parts : Parts (l.glyphsTo line none)) (number : Nat)
    (hcap : Captures parts p fromCode ((l.run line none).glyphsFrom rest)) :
    lineEdits number fromCode
        (Line.ofPiece (p.cellsTo (l.glyphsTo line none) ((l.run line none).glyphsFrom rest)))
        (lines (walk (l.run line none) (p.run (l.glyphsTo line none)) rest)) =
      parts.edits number := by
  have hsome := Line.expression?_eq_some_iff.mpr ⟨(h.isCaptured_iff parts fromCode).mpr hcap, rfl⟩
  rw [lineEdits, hsome]
  dsimp only
  rw [parts.expression_eq, parts.indent_eq, parts.line_eq, Progress.map_char_cellsTo,
    Progress.map_char_cellsTo, Progress.map_char_cellsTo, Progress.length_cellsTo, Parts.edits]

/-- The edits of any other line. -/
theorem FirstLine.lineEdits_kept (h : FirstLine line rest)
    (parts : Parts (l.glyphsTo line none)) (number : Nat)
    (hcap : ¬Captures parts p fromCode ((l.run line none).glyphsFrom rest)) :
    lineEdits number fromCode
        (Line.ofPiece (p.cellsTo (l.glyphsTo line none) ((l.run line none).glyphsFrom rest)))
        (lines (walk (l.run line none) (p.run (l.glyphsTo line none)) rest)) =
      line.map .keep := by
  rw [lineEdits, h.expression?_eq_none parts fromCode hcap]
  dsimp only
  rw [text_ofPiece, Progress.map_char_cellsTo, Lexer.map_char_glyphsTo]

/-- The edits of the lines of a text. -/
theorem FirstLine.captureEditsFrom_eq (h : FirstLine line rest) (number : Nat) :
    captureEditsFrom number fromCode (lines (walk l p (line ++ rest))) =
      lineEdits number fromCode
          (Line.ofPiece (p.cellsTo (l.glyphsTo line none) ((l.run line none).glyphsFrom rest)))
          (lines (walk (l.run line none) (p.run (l.glyphsTo line none)) rest)) ++
        captureEditsFrom (number + 1) ((l.glyphsTo line none).getLast?.all Glyph.isCode)
          (lines (walk (l.run line none) (p.run (l.glyphsTo line none)) rest)) := by
  rw [h.lines_walk, captureEditsFrom, getLast?_cells_ofPiece]

/-- From any line on the capture pass changes no region. -/
theorem carries_instrumentedFrom (hcode : fromCode = true → l.mode = .code) (number : Nat)
    (text : List Char) :
    Carries (Glyph.isSlight ·) (captureEditsFrom number fromCode (lines (walk l p text)))
      (l.glyphsFrom text) (l.glyphsFrom (instrumentedFrom number fromCode l p text)) := by
  induction text using lines_induction generalizing l p fromCode number with
  | nil => exact .nil
  | @line line rest hline ih =>
    obtain ⟨parts⟩ := hline.nonempty_parts l
    have hrest := @ih (l.run line none) (p.run (l.glyphsTo line none))
      ((l.glyphsTo line none).getLast?.all Glyph.isCode)
      (mode_of_getLast? (hline.cut.ne_nil (List.mem_singleton_self _))) (number + 1)
    rw [hline.captureEditsFrom_eq, hline.glyphsFrom]
    by_cases hcap : Captures parts p fromCode ((l.run line none).glyphsFrom rest)
    · have hmode := hcode hcap.fromCode
      obtain ⟨final, -, hwrapped⟩ := exists_glyphsTo_wrapped parts hmode hcap.nonempty number
      rw [← List.append_assoc (callEnd number), Lexer.glyphsTo_append] at hwrapped
      rw [hline.lineEdits_captured parts number hcap, hline.glyphsFrom_captured parts hmode hcap,
        hwrapped]
      refine .append (parts.carries number ?_ (Lexer.map_char_glyphsTo ..)
        (Lexer.map_char_glyphsTo ..)) hrest
      rw [List.map_map]
      exact List.map_id _
    · rw [hline.lineEdits_kept parts number hcap, hline.glyphsFrom_kept parts hcap]
      refine .append ?_ hrest
      have hkept := Carries.kept (Glyph.isSlight ·) (l.glyphsTo line none)
      rwa [Lexer.map_char_glyphsTo] at hkept

end

theorem instrument_keepsRegions (source : List Char) :
    KeepsRegions source (instrument source).text (captureEdits source) := by
  refine Carries.keepsRegions ?_
  rw [instrument_text, captureEdits, ← walk_initial]
  exact carries_instrumentedFrom (fun _ => rfl) 1 source

/-! ## The return pass -/

/-- The edits that return the last statement of a script. -/
def LastStatement.edits (s : LastStatement) : List Edit :=
  (s.before.map Cell.char).map .keep ++ ("return ".toList.map .write ++
    (s.expression.map .keep ++ (";".toList.map .write ++
      ((((s.statement.map Cell.char).drop s.expression.length).map fun c =>
          if c = '\n' then .keep c else .drop c) ++ (s.after.map Cell.char).map .keep))))

/-- The edits of the return pass on a script. -/
def returnEdits (source : List Char) : List Edit :=
  match lastStatement? (cells source) with
  | some s => if s.isReturnable then s.edits else source.map .keep
  | none => source.map .keep

theorem carries_self (source : List Char) :
    Carries (Glyph.isSlight ·) (source.map .keep) (glyphs source) (glyphs source) := by
  have hkept := Carries.kept (Glyph.isSlight ·) (glyphs source)
  rwa [map_char_glyphs] at hkept

/-- What follows the expression in the last statement is slight. -/
theorem Around.exists_spare {source cut inner : List Char} {s : LastStatement} {l final : Lexer}
    (hread : Around source s l final cut inner) :
    ∃ spare, s.statement.map Cell.glyph = l.glyphsTo s.expression (some ';') ++ spare ∧
      spare.map Glyph.char = cut ++ inner ∧ ∀ g ∈ spare, g.isSlight = true := by
  obtain ⟨spare, hspare⟩ := hread.body_prefix
  refine ⟨spare, hspare.symm, ?_, fun g hg => ?_⟩
  · have hchars := congrArg (List.map Glyph.char) hspare
    rw [List.map_append, Lexer.map_char_glyphsTo, map_char_glyph] at hchars
    exact List.append_cancel_left (hchars.trans hread.statement)
  · have hrest := hread.rest
    rw [List.map_append, ← hspare, List.append_assoc, List.append_cancel_left_eq] at hrest
    refine hread.ends.slight g ?_
    rw [← hrest]
    exact List.mem_append_left _ hg

/-- A returned statement keeps what stands before it, its expression and the line ends behind. -/
theorem carries_returned {source : List Char} {s : LastStatement}
    (h : lastStatement? (cells source) = some s) (hne : s.expression ≠ []) :
    Carries (Glyph.isSlight ·) s.edits (glyphs source) (glyphs s.returned) := by
  obtain ⟨l, final, cut, inner, hread⟩ := exists_around h hne
  obtain ⟨spare, hstatement, hspare, hslight⟩ := hread.exists_spare
  obtain ⟨body, hbody⟩ : ∃ body, body = l.glyphsTo s.expression (some ';') := ⟨_, rfl⟩
  obtain ⟨after, hafter⟩ : ∃ after, after = s.after.map Cell.char := ⟨_, rfl⟩
  obtain ⟨close, hclose⟩ : ∃ close, close = (final.step ';' (s.tail ++ after).head?).2 := ⟨_, rfl⟩
  have hexpression : body.map Glyph.char = s.expression := by rw [hbody, Lexer.map_char_glyphsTo]
  have hsource : glyphs source =
      s.before.map Cell.glyph ++ (body ++ (spare ++ s.after.map Cell.glyph)) := by
    rw [← map_glyph_cells, lastStatement?_append h, List.map_append, List.map_append, hstatement,
      hbody]
    simp only [List.append_assoc]
  have hreturned := hread.glyphs_returned (congrArg (s.tail ++ ·) hafter)
  rw [← hclose, Lexer.glyphsFrom_append, ← hbody] at hreturned
  have hfeeds : (close.glyphsTo s.tail after.head?).map Glyph.char =
      (spare.map Glyph.char).filter (· = '\n') := by
    rw [Lexer.map_char_glyphsTo, hread.tail_eq, hspare]
  -- nothing is significant behind the statement, in either text
  have hafterChars : ((close.run s.tail after.head?).glyphsFrom after).map Glyph.char =
      (s.after.map Cell.glyph).map Glyph.char := by
    rw [Lexer.map_char_glyphsFrom, map_char_glyph, hafter]
  have hbehind : ∀ g ∈ s.after.map Cell.glyph, g.isSignificant = false := by
    intro g hg
    obtain ⟨c, hc, rfl⟩ := List.mem_map.mp hg
    exact (lastStatement?_stands h).after c hc
  have htrailing : ∀ g ∈ (close.run s.tail after.head?).glyphsFrom after,
      g.isSignificant = false := by
    have hnot := trailing_not hread.ends hread.ready hread.tail_eq hread.closed
    rw [← hafter, ← hclose, Lexer.glyphsFrom_append] at hnot
    exact fun g hg => hnot g (List.mem_append_right _ hg)
  have hcarries := (Carries.kept (Glyph.isSlight ·) (s.before.map Cell.glyph)).append
    ((Carries.written returnGlyphs).append ((Carries.kept _ body).append
      ((Carries.written [⟨';', (final.step ';' (s.tail ++ after).head?).1⟩]).append
        ((Carries.feeds hslight hfeeds).append
          (Carries.copied hafterChars hbehind htrailing)))))
  rw [hsource, hreturned, LastStatement.edits, hread.drop_expression, ← hspare, ← hexpression]
  rw [map_char_glyph, map_char_glyph] at hcarries
  exact hcarries

theorem return_keepsRegions (source : List Char) :
    KeepsRegions source (returnLast source).text (returnEdits source) := by
  refine Carries.keepsRegions ?_
  rw [returnEdits]
  cases h : lastStatement? (cells source) with
  | none =>
    rw [returnLast, h]
    exact carries_self source
  | some s =>
    rw [returnLast_of_lastStatement h]
    dsimp only
    by_cases hreturnable : s.isReturnable = true
    · rw [if_pos hreturnable, if_pos hreturnable]
      exact carries_returned h (isReturnable_iff.mp hreturnable).2
    · rw [if_neg hreturnable, if_neg hreturnable]
      exact carries_self source

end SnippetRunner.Script
