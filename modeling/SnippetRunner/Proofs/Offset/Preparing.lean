import SnippetRunner.Script.Transform
import SnippetRunner.Proofs.Offset.Replacing
import SnippetRunner.Proofs.Offset.Capturing
import SnippetRunner.Proofs.Offset.Returning

/-
  Preparing a script by offset. All positions are found among the bytes of a script, by tests of
  single bytes, by steps of one or two, and by the lengths of trimmed texts; with them the table
  of regions is written, bytes are read and parts of the text are taken. `offsets_in_bounds`: no
  place is outside the table or the text, no part is out of order or begins or ends inside a
  character, so every script is prepared, and as `prepare` says.
-/
namespace SnippetRunner.Script

open SnippetRunner.Text SnippetRunner.Source

/-- Makes a script ready to run. -/
def prepare? (script : List Char) : Option Prepared := do
  let normalized ← Form.all.foldlM replaceForm? script
  let captured ← instrument? normalized
  let returning ← returnLast? captured.text
  return ⟨normalized, returning.text, returning.line, captured.captures⟩

theorem normalize?_eq (script : List Char) :
    Form.all.foldlM replaceForm? script = some (normalize script) := by
  have hforms : replaceForm? = fun text form => pure (replaceForm text form) :=
    funext fun text => funext fun form => replaceForm?_eq text form
  rw [hforms, List.foldlM_pure]
  rfl

theorem prepare?_eq (script : List Char) : prepare? script = some (prepare script) := by
  simp only [prepare?, normalize?_eq, instrument?_eq, returnLast?_eq, Option.bind_eq_bind,
    Option.bind_some]
  rfl

/-- All bytes of a character are in its region. -/
theorem byteRegions_eq (source : List Char) :
    (byteGlyphs source).map Glyph.region =
      (glyphs source).flatMap fun g => List.replicate g.char.utf8Size g.region := by
  have hbytes (g : Glyph) :
      g.bytes.map Glyph.region = List.replicate g.char.utf8Size g.region := by
    rw [Glyph.bytes, List.map_map, ← Nat.add_zero g.char.utf8Size, ← utf8Length_nil,
      ← utf8Length_cons, ← length_bytesOf]
    exact List.map_const'
  rw [byteGlyphs_eq, List.map_flatMap]
  simp only [hbytes]

/-- The bytes of a character share its region, the scan writes inside its table, each pass takes
the parts of its text between characters, and so every script is prepared. -/
theorem offsets_in_bounds (script : List Char) :
    (byteGlyphs script).map Glyph.region =
        (glyphs script).flatMap (fun g => List.replicate g.char.utf8Size g.region) ∧
      scan? script = some ((byteGlyphs script).map Glyph.region) ∧
      (∀ form, replaceForm? script form = some (replaceForm script form)) ∧
      instrument? script = some (instrument script) ∧
      returnLast? script = some (returnLast script) ∧
      prepare? script = some (prepare script) :=
  ⟨byteRegions_eq script, scan?_eq script, replaceForm?_eq script, instrument?_eq script,
    returnLast?_eq script, prepare?_eq script⟩

end SnippetRunner.Script
