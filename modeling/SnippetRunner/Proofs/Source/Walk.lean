import Mathlib.Data.List.Chain
import SnippetRunner.Source.Statement
import SnippetRunner.Proofs.Source.Lexing
import SnippetRunner.Proofs.Text.Cut

/-
  The walk over the glyphs of a script, seen from its lines. Each cell begins at the depth at
  which the one before it ends, so the table of line depths holds what the first and the last
  cell of every line say.
-/
namespace SnippetRunner.Source

open SnippetRunner.Text

/-- The next cell begins at the depth at which this one ends. -/
def Meets (a b : Cell) : Prop := a.depthAfter = b.depth

theorem isChain_cellsFrom (n : Nesting) (fresh : Bool) (gs : List Glyph) :
    (cellsFrom n fresh gs).IsChain Meets := by
  induction gs generalizing n fresh with
  | nil => exact .nil
  | cons g rest ih =>
    rw [cellsFrom]
    have h := ih (n.step g) (freshAfter fresh (n.isBoundary g rest) g)
    cases rest with
    | nil => exact .singleton _
    | cons g' rest =>
      rw [cellsFrom] at h ⊢
      exact .cons_cons rfl h

theorem isChain_cells (source : List Char) : (cells source).IsChain Meets :=
  isChain_cellsFrom _ _ _

theorem head?_cells_depth {source : List Char} {c : Cell} (h : (cells source).head? = some c) :
    c.depth = 0 := by
  unfold cells at h
  generalize glyphs source = gs at h
  cases gs with
  | nil => cases h
  | cons g rest =>
    rw [cellsFrom, List.head?_cons, Option.some.injEq] at h
    rw [← h]
    rfl

/-! ## Depths of lines -/

/-- The cells of a script, line by line. -/
def cellLines (source : List Char) : List (List Cell) := splitAfter (·.char = '\n') (cells source)

/-- The depth at the end of every line, the last of them given by `final` where there is no cell. -/
def endDepths (final : Nat) (cs : List Cell) : List Nat :=
  (cs.filter (·.char = '\n')).map Cell.depthAfter ++ [(cs.getLast?.map Cell.depthAfter).getD final]

theorem lineDepths_eq (source : List Char) : lineDepths source = 0 :: endDepths 0 (cells source) :=
  rfl

theorem endDepths_getElem? {pieces : List (List Cell)} (h : Cut (·.char = '\n') pieces)
    (final k : Nat) {piece : List Cell} (hp : pieces[k]? = some piece) :
    (endDepths final pieces.flatten)[k]? = piece.getLast?.map Cell.depthAfter := by
  induction h generalizing final k with
  | nil => simp at hp
  | @unclosed p hne hu =>
    cases k with
    | succ k => simp at hp
    | zero =>
      obtain rfl : p = piece := by simpa using hp
      have e : p.filter (·.char = '\n') = [] :=
        List.filter_eq_nil_iff.mpr fun c hc => by simp [hu c hc]
      obtain ⟨c, hc⟩ := List.getLast?_isSome.mpr hne |> Option.isSome_iff_exists.mp
      simp [endDepths, e, hc]
  | @closed init a pieces hu hm _ ih =>
    have e : init.filter (·.char = '\n') = [] :=
      List.filter_eq_nil_iff.mpr fun c hc => by simp [hu c hc]
    have hfilter : ((init ++ [a]) ++ pieces.flatten).filter (·.char = '\n') =
        a :: pieces.flatten.filter (·.char = '\n') := by
      have ha : [a].filter (·.char = '\n') = [a] := by simpa using hm
      rw [List.filter_append, List.filter_append, e, ha, List.nil_append, List.singleton_append]
    have hlast : (((init ++ [a]) ++ pieces.flatten).getLast?.map Cell.depthAfter).getD final =
        (pieces.flatten.getLast?.map Cell.depthAfter).getD a.depthAfter := by
      rw [List.getLast?_append]
      cases pieces.flatten.getLast? <;> simp
    have hcons : endDepths final ((init ++ [a]) :: pieces).flatten =
        a.depthAfter :: endDepths a.depthAfter pieces.flatten := by
      rw [endDepths, List.flatten_cons, hfilter, hlast, List.map_cons]
      rfl
    rw [hcons]
    cases k with
    | zero =>
      obtain rfl : init ++ [a] = piece := by simpa using hp
      simp
    | succ k => exact ih a.depthAfter k (by simpa using hp)

theorem flatten_cellLines (source : List Char) : (cellLines source).flatten = cells source :=
  flatten_splitAfter _ _

theorem cut_cellLines (source : List Char) : Cut (·.char = '\n') (cellLines source) :=
  cut_splitAfter _ _

/-- The line of a cell, behind as many lines as line ends stand before it. -/
theorem exists_cellLine {source : List Char} {before after : List Cell} {c : Cell}
    (h : cells source = before ++ c :: after) :
    ∃ earlier init tail later, cellLines source = earlier ++ (init ++ c :: tail) :: later ∧
      earlier.length = newlines (before.map Cell.char) ∧
      before = earlier.flatten ++ init ∧ after = tail ++ later.flatten ∧
      ∀ d ∈ (init ++ c :: tail).dropLast, d.char ≠ '\n' := by
  obtain ⟨earlier, init, tail, later, hpieces, hlength, hbefore, hafter⟩ :=
    splitAfter_append_cons (fun d : Cell => decide (d.char = '\n')) before c after
  rw [← h] at hpieces
  refine ⟨earlier, init, tail, later, hpieces, ?_, hbefore, hafter, fun d hd => ?_⟩
  · rw [hlength, newlines, List.count, List.countP_map]
    rfl
  · have hmem : init ++ c :: tail ∈ cellLines source := by
      rw [cellLines, hpieces]
      simp
    simpa using (cut_cellLines source).unmarked_of_mem_dropLast hmem hd

/-- The table holds the depth at the end of every line. -/
theorem lineDepths_end {source : List Char} {k : Nat} {piece : List Cell}
    (h : (cellLines source)[k]? = some piece) :
    (lineDepths source)[k + 1]? = piece.getLast?.map Cell.depthAfter := by
  have hd := endDepths_getElem? (cut_cellLines source) 0 k h
  rwa [flatten_cellLines] at hd

/-- The table holds the depth at the start of every line. -/
theorem lineDepths_start {source : List Char} {k : Nat} {piece : List Cell}
    (h : (cellLines source)[k]? = some piece) :
    (lineDepths source)[k]? = piece.head?.map Cell.depth := by
  have hne {p : List Cell} {j : Nat} (hp : (cellLines source)[j]? = some p) : p ≠ [] :=
    (cut_cellLines source).ne_nil (List.mem_of_getElem? hp)
  obtain ⟨c, hc⟩ : ∃ c, piece.head? = some c :=
    Option.isSome_iff_exists.mp (List.isSome_head?.mpr (hne h))
  cases k with
  | zero =>
    have hhead : (cells source).head? = some c := by
      rw [← flatten_cellLines]
      cases hl : cellLines source with
      | nil => simp [hl] at h
      | cons p ps =>
        obtain rfl : p = piece := by simpa [hl] using h
        rw [List.flatten_cons, List.head?_append, hc]
        rfl
    rw [hc, lineDepths_eq, Option.map_some, head?_cells_depth hhead]
    rfl
  | succ k =>
    have hlt : k < (cellLines source).length := by
      have := (List.getElem?_eq_some_iff.mp h).1
      omega
    have hprev : (cellLines source)[k]? = some (cellLines source)[k] := List.getElem?_eq_getElem hlt
    obtain ⟨d, hd⟩ : ∃ d, ((cellLines source)[k]).getLast? = some d :=
      Option.isSome_iff_exists.mp (List.getLast?_isSome.mpr (hne hprev))
    have hchain := isChain_cells source
    rw [← flatten_cellLines, List.isChain_flatten fun hm => (cut_cellLines source).ne_nil hm rfl]
      at hchain
    have hmeets : Meets d c := by
      have hk1 := (List.getElem?_eq_some_iff.mp h)
      have hpair := List.isChain_iff_getElem.mp hchain.2 k hk1.1
      rw [hk1.2] at hpair
      exact hpair d hd c hc
    rw [lineDepths_end hprev, hd, hc, Option.map_some, Option.map_some, hmeets]

/-! ## Glyphs of a part -/

theorem map_char_glyph (cs : List Cell) :
    (cs.map Cell.glyph).map Glyph.char = cs.map Cell.char := by
  rw [List.map_map]
  rfl

theorem map_glyph_of_append {source : List Char} {before after : List Cell}
    (h : cells source = before ++ after) :
    before.map Cell.glyph =
      Lexer.initial.glyphsTo (before.map Cell.char) (after.map Cell.char).head? := by
  have hglyphs : glyphs source = before.map Cell.glyph ++ after.map Cell.glyph := by
    rw [← List.map_append, ← h, map_glyph_cells]
  rw [glyphs, Lexer.glyphsFrom_eq_glyphsTo] at hglyphs
  obtain ⟨-, hbefore, -⟩ := Lexer.glyphsTo_eq_append hglyphs
  rwa [map_char_glyph, map_char_glyph, Option.or_none] at hbefore

/-- The mode in which the lexer is after the first `n` characters of a text. -/
def modeAt (source : List Char) (n : Nat) : Mode :=
  (Lexer.initial.run (source.take n) (source.drop n).head?).mode

theorem modeAt_length {source : List Char} {before after : List Cell}
    (h : cells source = before ++ after) :
    modeAt source before.length =
      (Lexer.initial.run (before.map Cell.char) (after.map Cell.char).head?).mode := by
  have hsource : source = before.map Cell.char ++ after.map Cell.char := by
    rw [← List.map_append, ← h, map_char_cells]
  rw [modeAt]
  conv_lhs => rw [hsource]
  rw [List.take_left' (by simp), List.drop_left' (by simp)]

/-- The lexer at a cell gives its region. -/
theorem region_eq_step {source : List Char} {before after : List Cell} {c : Cell}
    (h : cells source = before ++ c :: after) :
    c.glyph.region = ((Lexer.initial.run (before.map Cell.char) (some c.char)).step c.char
      (after.map Cell.char).head?).1 := by
  have hconcat : cells source = (before ++ [c]) ++ after := by rw [h]; simp
  have hglyphs := map_glyph_of_append hconcat
  rw [List.map_append, List.map_append, List.map_singleton, List.map_singleton,
    Lexer.glyphsTo_concat] at hglyphs
  rw [(List.cons.inj (List.append_inj' hglyphs rfl).2).1]

/-- In front of a code character the lexer is in code, or the character is a line feed, which ends
a line comment or a string. -/
theorem modeAt_before_code {source : List Char} {before after : List Cell} {c : Cell}
    (h : cells source = before ++ c :: after) (hcode : c.isCode = true) :
    modeAt source before.length = .code ∨ c.char = '\n' ∧
      (modeAt source before.length = .lineComment ∨
        ∃ quote, modeAt source before.length = .quoted quote) := by
  have hregion : c.glyph.region = .code := by simpa [Cell.isCode, Glyph.isCode] using hcode
  rw [region_eq_step h] at hregion
  rw [modeAt_length h]
  exact Lexer.mode_of_code hregion

/-- After a code character the lexer is in code. -/
theorem modeAt_of_code {source : List Char} {before after : List Cell}
    (h : cells source = before ++ after) (hcode : before.getLast?.all Cell.isCode = true) :
    modeAt source before.length = .code := by
  rw [modeAt_length h]
  cases before.eq_nil_or_concat' with
  | inl he =>
    rw [he]
    rfl
  | inr he =>
    obtain ⟨before, c, rfl⟩ := he
    rw [List.append_assoc, List.singleton_append] at h
    have hregion : c.glyph.region = .code := by simpa [Cell.isCode, Glyph.isCode] using hcode
    rw [region_eq_step h] at hregion
    rw [List.map_append, List.map_singleton, Lexer.run_concat]
    exact Lexer.mode_of_region_code hregion

end SnippetRunner.Source
