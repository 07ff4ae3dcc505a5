import SnippetRunner.Script.Transform
import SnippetRunner.Proofs.Script.LineWalk
import SnippetRunner.Proofs.Source.Enclosed

/-
  The script in the function that it is run in. The wrapper opens two brackets and puts the script
  between two fixed lines without a look at it, so all of its code is inside the function exactly
  if it closes no bracket that it has not opened (`wrapper_contains_iff`); that the brackets of the
  whole text come out even does not say so.
-/
namespace SnippetRunner.Script

open SnippetRunner.Text SnippetRunner.Source

/-! ## The wrapper -/

/-- The line in front of the script. -/
def wrapperHead (keyword : List Char) : List Char := "(".toList ++ keyword ++ " () \x7b\n".toList

/-- What begins the function of a wrapper. -/
def functionKeywords : List (List Char) := ["function".toList, "async function".toList]

/-- What stands behind the script: the end of the function, and the call of one that is run. -/
def wrapperTails : List (List Char) := ["\n\x7d)".toList, "\n\x7d)()".toList]

/-- The cells of the script in a wrapped text: those behind the wrapper's first line. -/
def bodyCells (text script : List Char) : List Cell :=
  ((cells text).drop (text.idxOf '\n' + 1)).take script.length

/-- All code of the script lies inside the brackets of the function. -/
def Contains (text script : List Char) : Prop :=
  ∀ c ∈ bodyCells text script, c.isCode = true → 2 ≤ c.depth

instance (text script : List Char) : Decidable (Contains text script) :=
  inferInstanceAs (Decidable (∀ c ∈ bodyCells text script, c.isCode = true → 2 ≤ c.depth))

theorem wrapForCheck_eq (script : List Char) : ∃ keyword ∈ functionKeywords,
    ∃ tail ∈ wrapperTails, wrapForCheck script = wrapperHead keyword ++ (script ++ tail) := by
  refine ⟨"async function".toList, by decide, "\n\x7d)".toList, by decide, ?_⟩
  rw [wrapForCheck, wrapBody, wrapperHead, List.append_assoc]

theorem wrapInvocation_eq (script : List Char) (isAsync : Bool) : ∃ keyword ∈ functionKeywords,
    ∃ tail ∈ wrapperTails,
      wrapInvocation script isAsync = wrapperHead keyword ++ (script ++ tail) := by
  refine ⟨if isAsync then "async function".toList else "function".toList, ?_,
    "\n\x7d)()".toList, by decide, ?_⟩
  · cases isAsync <;> decide
  · rw [wrapInvocation, wrapBody, wrapperHead]
    simp only [List.append_assoc]
    rfl

variable {keyword : List Char}

theorem eq_or_eq_of_mem_keywords (h : keyword ∈ functionKeywords) :
    keyword = "function".toList ∨ keyword = "async function".toList := by
  rwa [functionKeywords, List.mem_cons, List.mem_singleton] at h

theorem eq_or_eq_of_mem_tails {tail : List Char} (h : tail ∈ wrapperTails) :
    tail = "\n\x7d)".toList ∨ tail = "\n\x7d)()".toList := by
  rwa [wrapperTails, List.mem_cons, List.mem_singleton] at h

theorem getLast?_wrapperHead (keyword : List Char) :
    (wrapperHead keyword).getLast? = some '\n' := by
  rw [wrapperHead, List.getLast?_append]
  rfl

theorem run_wrapperHead (h : keyword ∈ functionKeywords) (next : Option Char) :
    Lexer.initial.run (wrapperHead keyword) next = .braced := by
  rw [(glyphsTo_of_feed _ (Or.inr (getLast?_wrapperHead keyword)) next).2]
  rcases eq_or_eq_of_mem_keywords h with rfl | rfl <;> decide

theorem depth_wrapperHead (h : keyword ∈ functionKeywords) (next : Option Char) :
    (Progress.initial.run (Lexer.initial.glyphsTo (wrapperHead keyword) next)).nesting.depth =
      2 := by
  rw [(glyphsTo_of_feed _ (Or.inr (getLast?_wrapperHead keyword)) next).1]
  rcases eq_or_eq_of_mem_keywords h with rfl | rfl <;> decide

theorem idxOf_wrapperHead (h : keyword ∈ functionKeywords) (rest : List Char) :
    (wrapperHead keyword ++ rest).idxOf '\n' + 1 = (wrapperHead keyword).length := by
  have hfeed : '\n' ∈ wrapperHead keyword := List.mem_of_getLast? (getLast?_wrapperHead keyword)
  rw [List.idxOf_append_of_mem hfeed]
  rcases eq_or_eq_of_mem_keywords h with rfl | rfl <;> decide

/-! ## The wrapped text -/

/-- A wrapped text as the walk sees it: `outer` is where it comes to the script, and `lexer` the
state in which the lexer comes to the wrapper's end. -/
structure Wrapped (text script tail : List Char) where
  before : List Cell
  outer : Progress
  lexer : Lexer
  depth : outer.nesting.depth = 2
  ready : lexer.Ready tail.head?
  cells_eq : cells text = before ++ (outer.cellsTo (glyphs script) (lexer.glyphsFrom tail) ++
    (outer.run (glyphs script)).cellsTo (lexer.glyphsFrom tail) [])
  length_before : before.length = text.idxOf '\n' + 1

/-- Behind the head of a wrapper the script has the regions that it has on its own. -/
theorem exists_wrapped {script tail : List Char} (hkeyword : keyword ∈ functionKeywords)
    (htail : tail ∈ wrapperTails) :
    Nonempty (Wrapped (wrapperHead keyword ++ (script ++ tail)) script tail) := by
  have hfeed : tail.head? = some '\n' := by
    rcases eq_or_eq_of_mem_tails htail with rfl | rfl <;> rfl
  have hglyphs : glyphs (wrapperHead keyword ++ (script ++ tail)) =
      Lexer.initial.glyphsTo (wrapperHead keyword) (script ++ tail).head? ++
        (glyphs script ++ (Lexer.braced.run script (some '\n')).glyphsFrom tail) := by
    rw [glyphs, Lexer.glyphsFrom_append, run_wrapperHead hkeyword, Lexer.glyphsFrom_append, hfeed,
      Lexer.glyphsTo_newline, Lexer.glyphsFrom_braced]
  obtain ⟨head, hhead⟩ : ∃ head, head =
    Lexer.initial.glyphsTo (wrapperHead keyword) (script ++ tail).head? := ⟨_, rfl⟩
  refine ⟨{
    before := Progress.initial.cellsTo head
      (glyphs script ++ (Lexer.braced.run script (some '\n')).glyphsFrom tail)
    outer := Progress.initial.run head
    lexer := Lexer.braced.run script (some '\n')
    depth := by rw [hhead, depth_wrapperHead hkeyword]
    ready := ?_
    cells_eq := ?_
    length_before := ?_ }⟩
  · rw [hfeed]
    exact Lexer.ready_run trivial
  · rw [cells_eq_cellsTo, hglyphs, ← hhead, Progress.cellsTo_append, Progress.cellsTo_append,
      List.append_nil, List.append_nil]
  · rw [Progress.length_cellsTo, hhead, Lexer.length_glyphsTo, idxOf_wrapperHead hkeyword]

/-- In code the wrapper's end closes two brackets. -/
theorem depth_of_closing {p : Progress} {parentheses : List Char}
    (h : parentheses = ")".toList ∨ parentheses = ")()".toList)
    (hown : ClosesOwn (p.cellsTo (('\x7d' :: parentheses).map (⟨·, .code⟩)) []))
    (hclosed : (p.run (('\x7d' :: parentheses).map (⟨·, .code⟩))).nesting.depth = 0) :
    p.nesting.depth = 2 := by
  have hbrace : (p.run ("\x7d".toList.map (⟨·, .code⟩))).nesting.depth = p.nesting.depth - 1 :=
    p.depth_run_code "\x7d".toList
  have hsecond : (p.run ("\x7d".toList.map (⟨·, .code⟩))).nesting.depth ≠ 0 := by
    rcases h with rfl | rfl <;>
      exact hown _ (List.mem_cons_of_mem _ (List.mem_cons_self ..)) rfl rfl
  rw [Progress.depth_run_code] at hclosed
  rcases h with rfl | rfl
  · have hend : p.nesting.depth - 1 - 1 = 0 := hclosed
    omega
  · have hend : p.nesting.depth - 1 - 1 + 1 - 1 = 0 := hclosed
    omega

/-- The brackets of the wrapper's end are code, and close the function, or none of them is. -/
theorem depth_run_tail {l : Lexer} {p : Progress} {tail : List Char} (htail : tail ∈ wrapperTails)
    (hready : l.Ready tail.head?) (hown : ClosesOwn (p.cellsTo (l.glyphsFrom tail) []))
    (hclosed : (p.run (l.glyphsFrom tail)).nesting.depth = 0) :
    p.nesting.depth = 0 ∨ p.nesting.depth = 2 := by
  obtain ⟨parentheses, rfl, hcases⟩ : ∃ parentheses, tail = '\n' :: '\x7d' :: parentheses ∧
      (parentheses = ")".toList ∨ parentheses = ")()".toList) := by
    rcases eq_or_eq_of_mem_tails htail with rfl | rfl
    · exact ⟨_, rfl, Or.inl rfl⟩
    · exact ⟨_, rfl, Or.inr rfl⟩
  obtain ⟨l₁, hl₁⟩ : ∃ l₁, l₁ = (l.step '\n' (some '\x7d')).2 := ⟨_, rfl⟩
  obtain ⟨l₂, hl₂⟩ : ∃ l₂, l₂ = (l₁.step '\x7d' parentheses.head?).2 := ⟨_, rfl⟩
  have hready₁ : l₁.Ready (some '\x7d') := hl₁ ▸ Lexer.ready_step hready
  have hready₂ : l₂.Ready parentheses.head? := hl₂ ▸ Lexer.ready_step hready₁
  have hbrace : (l₁.step '\x7d' parentheses.head?).1 = .code ↔ l₂.mode = .code :=
    hl₂ ▸ Lexer.step_brace hready₁
  obtain ⟨feed, hfeed⟩ : ∃ feed : Glyph, feed = ⟨'\n', (l.step '\n' (some '\x7d')).1⟩ := ⟨_, rfl⟩
  have hglyphs : l.glyphsFrom ('\n' :: '\x7d' :: parentheses) = feed ::
      (⟨'\x7d', (l₁.step '\x7d' parentheses.head?).1⟩ :: l₂.glyphsFrom parentheses) := by
    rw [Lexer.glyphsFrom, Lexer.glyphsFrom, List.head?_cons, ← hl₁, ← hl₂, hfeed]
  have hdepth : (p.step feed).nesting.depth = p.nesting.depth := by
    rw [Progress.depth_step, hfeed]
    simp [isOpening, isClosing]
  rw [hglyphs, Progress.run_cons] at hclosed
  rw [hglyphs, Progress.cellsTo, closesOwn_cons] at hown
  rw [← hdepth]
  by_cases hmode : l₂.mode = .code
  · right
    have hplain : ∀ c ∈ parentheses, isPlain c = true := by
      rcases hcases with rfl | rfl <;> exact List.all_eq_true.mp (by decide)
    have hcode : ⟨'\x7d', (l₁.step '\x7d' parentheses.head?).1⟩ :: l₂.glyphsFrom parentheses =
        ('\x7d' :: parentheses).map (⟨·, .code⟩) := by
      rw [hbrace.mpr hmode, Lexer.glyphsFrom_eq_glyphsTo, (Lexer.plain_code hmode hplain none).1,
        List.map_cons]
    rw [hcode] at hclosed hown
    exact depth_of_closing hcases hown.2 hclosed
  · left
    have hparentheses : ∀ c ∈ parentheses, c = '(' ∨ c = ')' := by
      rcases hcases with rfl | rfl <;> simp
    have hnone := Lexer.not_code_of_parentheses hparentheses hready₂ hmode
    have hfirst : Glyph.isCode ⟨'\x7d', (l₁.step '\x7d' parentheses.head?).1⟩ = false := by
      simpa [Glyph.isCode] using mt hbrace.mp hmode
    rwa [Progress.depth_run_of_not_code (List.forall_mem_cons.mpr ⟨hfirst, hnone⟩)] at hclosed

/-! ## What the function contains -/

namespace Wrapped

variable {text script tail : List Char} (w : Wrapped text script tail)

theorem bodyCells_eq :
    bodyCells text script = w.outer.cellsTo (glyphs script) (w.lexer.glyphsFrom tail) := by
  have hlength : (w.outer.cellsTo (glyphs script) (w.lexer.glyphsFrom tail)).length =
      script.length := by
    rw [Progress.length_cellsTo, ← List.length_map Glyph.char, map_char_glyphs]
  rw [bodyCells, w.cells_eq, List.drop_left' w.length_before, List.take_left' hlength]

include w in
theorem map_glyph_bodyCells : (bodyCells text script).map Cell.glyph = glyphs script := by
  rw [w.bodyCells_eq, Progress.map_glyph_cellsTo]

include w in
theorem inside_iff :
    (∀ c ∈ bodyCells text script, c.isCode = true → 2 ≤ c.depth ∧ 2 ≤ c.depthAfter) ↔
      ClosesOwn (cells script) := by
  rw [w.bodyCells_eq, cells_eq_cellsTo]
  exact Progress.inside_iff_closesOwn (by decide) w.depth

include w in
/-- In a balanced text the script leaves both brackets of the function open, or neither. -/
theorem depth_run (htail : tail ∈ wrapperTails) (hbalanced : IsBalanced text) :
    (w.outer.run (glyphs script)).nesting.depth = 0 ∨
      (w.outer.run (glyphs script)).nesting.depth = 2 := by
  have hown := hbalanced.closesOwn
  have hclosed := hbalanced.closed
  have hnonempty : w.lexer.glyphsFrom tail ≠ [] := by
    rcases eq_or_eq_of_mem_tails htail with rfl | rfl <;> exact List.cons_ne_nil _ _
  obtain ⟨c, hc, hdepth⟩ := Option.map_eq_some_iff.mp
    ((w.outer.run (glyphs script)).map_depthAfter_getLast? hnonempty [])
  rw [w.cells_eq, closesOwn_append, closesOwn_append] at hown
  rw [w.cells_eq, List.getLast?_append, List.getLast?_append, hc] at hclosed
  exact depth_run_tail htail w.ready hown.2.2 (hdepth ▸ hclosed c rfl)

include w in
theorem contains_iff (htail : tail ∈ wrapperTails) (hbalanced : IsBalanced text) :
    Contains text script ↔ IsBalanced script := by
  have hends := w.depth_run htail hbalanced
  have hdepth : w.outer.nesting.depth = Progress.initial.nesting.depth + 2 := w.depth
  rw [isBalanced_iff, ← w.inside_iff]
  constructor
  · intro hin
    have hown : ClosesOwn (cells script) := by
      by_contra hforeign
      rw [Contains, w.bodyCells_eq] at hin
      rw [cells_eq_cellsTo] at hforeign
      have := Progress.depth_run_foreign (by decide) hdepth hin hforeign
      omega
    have hrun := Progress.depth_run_inside hdepth (cells_eq_cellsTo script ▸ hown)
    exact ⟨w.inside_iff.mpr hown, by omega⟩
  · exact fun h c hc hcode => (h.1 c hc hcode).1

end Wrapped

/-- How a wrapped text holds its script. -/
structure Containment (text script : List Char) : Prop where
  /-- The script has the regions that it has on its own. -/
  regions : (bodyCells text script).map Cell.glyph = glyphs script
  /-- All code stays inside the function, with every bracket that it closes, exactly if the script
  closes only brackets that it has opened. -/
  inside : (∀ c ∈ bodyCells text script, c.isCode = true → 2 ≤ c.depth ∧ 2 ≤ c.depthAfter) ↔
    ClosesOwn (cells script)
  /-- Where the brackets of the text come out even, the code lies inside the function exactly if
  those of the script do. -/
  balanced : IsBalanced text → (Contains text script ↔ IsBalanced script)

theorem wrapper_contains_iff (script : List Char) (isAsync : Bool) :
    Containment (wrapForCheck script) script ∧
      Containment (wrapInvocation script isAsync) script := by
  have hwrapped {text : List Char} (h : ∃ keyword ∈ functionKeywords, ∃ tail ∈ wrapperTails,
      text = wrapperHead keyword ++ (script ++ tail)) : Containment text script := by
    obtain ⟨keyword, hkeyword, tail, htail, rfl⟩ := h
    obtain ⟨w⟩ := exists_wrapped hkeyword htail
    exact ⟨w.map_glyph_bodyCells, w.inside_iff, w.contains_iff htail⟩
  exact ⟨hwrapped (wrapForCheck_eq script), hwrapped (wrapInvocation_eq script isAsync)⟩

/-- A script that closes the function and opens another bracket pair leaves both wrapped texts
balanced, and what stands between lies outside of the function. -/
theorem balanced_wrapper_runs_script :
    IsBalanced (wrapForCheck "\x7d);\nevil();\n(\x7b".toList) ∧
      IsBalanced (wrapInvocation "\x7d);\nevil();\n(\x7b".toList false) ∧
      ¬Contains (wrapForCheck "\x7d);\nevil();\n(\x7b".toList) "\x7d);\nevil();\n(\x7b".toList ∧
      ¬Contains (wrapInvocation "\x7d);\nevil();\n(\x7b".toList false)
        "\x7d);\nevil();\n(\x7b".toList ∧
      ((bodyCells (wrapForCheck "\x7d);\nevil();\n(\x7b".toList)
        "\x7d);\nevil();\n(\x7b".toList)[4]?.map fun c => (c.char, c.isCode, c.depth)) =
        some ('e', true, 0) := by
  decide +kernel

end SnippetRunner.Script
