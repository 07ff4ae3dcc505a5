import SnippetRunner.Proofs.Offset.Search
import SnippetRunner.Proofs.Script.LineCount

/-
  Replacing declarations by offset. The declarations of one form are found first, each with the
  offsets of its ends; the new text joins what is taken from between them to their code.
  `replaceForm?_eq`: all those parts can be taken, and they join to the text with the form
  replaced.
-/
namespace SnippetRunner.Script

open SnippetRunner.Text SnippetRunner.Source

/-- A declaration with the offsets at which it begins and ends. -/
structure Found where
  start : Nat
  stop : Nat
  declaration : Declaration
  deriving DecidableEq, Repr

/-- The declarations of one form in a text that begins at `offset`, from left to right. The first
`skip` characters belong to a declaration found before. -/
def foundFrom (form : Form) (afterWord : Bool) (skip offset : Nat) : List Char → List Found
  | [] => []
  | c :: text =>
    match skip with
    | skip + 1 => foundFrom form (isWord c) skip (offset + c.utf8Size) text
    | 0 =>
      match if afterWord then none else form.read? (c :: text) with
      | none => foundFrom form (isWord c) 0 (offset + c.utf8Size) text
      | some (declaration, rest) =>
        let count := text.length - rest.length
        ⟨offset, offset + utf8Length (c :: text.take count), declaration⟩
          :: foundFrom form (isWord c) count (offset + c.utf8Size) text

/-- The text from the offset `last` on, with the declarations replaced that begin in code. -/
def replaceFound? (text : List Char) (regions : List Region) (last : Nat) :
    List Found → Option (List Char)
  | [] => slice? text last (utf8Length text)
  | found :: more =>
    if regions[found.start]?.getD .code = .code then do
      let kept ← slice? text last found.start
      let whole ← slice? text found.start found.stop
      let rest ← replaceFound? text regions found.stop more
      return kept ++ (found.declaration.render ++ List.replicate (newlines whole) '\n') ++ rest
    else replaceFound? text regions last more

/-- Replaces the declarations of one form. -/
def replaceForm? (text : List Char) (form : Form) : Option (List Char) :=
  (scan? text).bind fun regions =>
    replaceFound? text regions 0 (foundFrom form false 0 0 text)

theorem utf8Length_map_char (gs : List Glyph) :
    (gs.flatMap Glyph.bytes).length = utf8Length (gs.map Glyph.char) := by
  induction gs with
  | nil => rfl
  | cons g gs ih =>
    rw [List.flatMap_cons, List.length_append, ih, Glyph.bytes, List.length_map, length_bytesOf]
    simp

/-- The region of the byte at which a character begins. -/
theorem byteRegions_getElem? {text : List Char} {seen gs : List Glyph} {g : Glyph}
    (h : glyphs text = seen ++ g :: gs) :
    ((byteGlyphs text).map Glyph.region)[utf8Length (seen.map Glyph.char)]? = some g.region := by
  obtain ⟨b, more, hbytes⟩ : ∃ b more, g.bytes = b :: more := by
    rcases g.bytes_cases with ⟨-, hbytes⟩ | ⟨-, b, more, hbytes, -⟩
    · exact ⟨_, _, hbytes⟩
    · exact ⟨_, _, hbytes⟩
  have hregion : b.region = g.region :=
    Glyph.region_of_mem_bytes (by rw [hbytes]; exact List.mem_cons_self ..)
  rw [byteGlyphs_eq, h, List.flatMap_append, List.getElem?_map,
    List.getElem?_append_right (by rw [utf8Length_map_char]), utf8Length_map_char, Nat.sub_self,
    List.flatMap_cons, hbytes]
  simp [hregion]

section Replacing

variable {form : Form} {text : List Char}

theorem foundFrom_of_none {afterWord : Bool} {c : Char} {s : List Char} (offset : Nat)
    (h : (if afterWord then none else form.read? (c :: s)) = none) :
    foundFrom form afterWord 0 offset (c :: s) =
      foundFrom form (isWord c) 0 (offset + c.utf8Size) s := by
  rw [foundFrom, h]

theorem foundFrom_of_some {afterWord : Bool} {c : Char} {s rest : List Char} {d : Declaration}
    (offset : Nat) (h : (if afterWord then none else form.read? (c :: s)) = some (d, rest)) :
    foundFrom form afterWord 0 offset (c :: s) =
      ⟨offset, offset + utf8Length (c :: s.take (s.length - rest.length)), d⟩
        :: foundFrom form (isWord c) (s.length - rest.length) (offset + c.utf8Size) s := by
  rw [foundFrom, h]

/-- What is taken from the offset behind `done` on, or behind the declaration that is left out,
is `kept` and the rest with the form replaced. -/
def Takes (form : Form) (text : List Char) (ahead : Ahead) (afterWord : Bool)
    (done kept : List Char) (gs : List Glyph) : Prop :=
  replaceFound? text ((byteGlyphs text).map Glyph.region)
      (utf8Length done + utf8Length ((gs.map Glyph.char).take ahead.dropped))
      (foundFrom form afterWord ahead.skipped (utf8Length (done ++ kept)) (gs.map Glyph.char)) =
    some (kept ++ replaceFrom form afterWord ahead (gs.map Glyph.char) (gs.map Glyph.region))

variable {ahead after : Ahead} {afterWord : Bool} {done kept : List Char} {seen gs : List Glyph}
  {g : Glyph}

theorem utf8Length_concat (s : List Char) (c : Char) :
    utf8Length (s ++ [c]) = utf8Length s + c.utf8Size := by
  simp

/-- A character that stays. -/
theorem takes_kept (h : Takes form text after (isWord g.char) done (kept ++ [g.char]) gs)
    (hafter : after.dropped = 0) (hahead : ahead.dropped = 0)
    (hfound : ∀ offset,
      foundFrom form afterWord ahead.skipped offset (g.char :: gs.map Glyph.char) =
        foundFrom form (isWord g.char) after.skipped (offset + g.char.utf8Size) (gs.map Glyph.char))
    (hreplace : replaceFrom form afterWord ahead (g.char :: gs.map Glyph.char)
        (g.region :: gs.map Glyph.region) =
      g.char :: replaceFrom form (isWord g.char) after (gs.map Glyph.char) (gs.map Glyph.region)) :
    Takes form text ahead afterWord done kept (g :: gs) := by
  unfold Takes at h ⊢
  rw [hafter, List.take_zero, ← List.append_assoc, utf8Length_concat] at h
  rw [hahead, List.take_zero, List.map_cons, List.map_cons, hfound, hreplace, h,
    List.append_assoc, List.singleton_append]

/-- A declaration in the text, from its first character on. -/
theorem slice?_declaration {before s : List Char} {c : Char} (htext : text = before ++ c :: s)
    (count : Nat) :
    slice? text (utf8Length before) (utf8Length before + utf8Length (c :: s.take count)) =
      some (c :: s.take count) := by
  have hcut : text = before ++ (c :: s.take count) ++ s.drop count := by
    rw [List.append_assoc, List.cons_append, List.take_append_drop]
    exact htext
  exact slice?_of_append hcut rfl rfl

theorem replacement_cons {d : Declaration} {c : Char} {s rest : List Char}
    (hle : rest.length ≤ s.length) : replacement d (c :: s) rest = d.render ++
      List.replicate (newlines (c :: s.take (s.length - rest.length))) '\n' := by
  have hlength : (c :: s).length - rest.length = s.length - rest.length + 1 := by
    rw [List.length_cons]
    omega
  rw [replacement, hlength, List.take_succ_cons]

theorem takes_replaced {d : Declaration} {rest : List Char}
    (hglyphs : glyphs text = seen ++ g :: gs) (hseen : seen.map Glyph.char = done ++ kept)
    (hread : (if afterWord then none else form.read? (g.char :: gs.map Glyph.char)) =
      some (d, rest)) (hcode : g.region = .code)
    (ih : Takes form text (.replaced ((gs.map Glyph.char).length - rest.length)) (isWord g.char)
      (done ++ kept ++ [g.char]) [] gs) :
    Takes form text .nothing afterWord done kept (g :: gs) := by
  have htext : text = done ++ kept ++ g.char :: gs.map Glyph.char := by
    rw [← map_char_glyphs text, hglyphs, List.map_append, hseen, List.map_cons]
  have hstart := byteRegions_getElem? hglyphs
  have hle : rest.length ≤ (gs.map Glyph.char).length := by
    split at hread
    · cases hread
    · exact length_rest_le hread
  have hkept : slice? text (utf8Length done) (utf8Length (done ++ kept)) = some kept :=
    slice?_of_append htext rfl (utf8Length_append done kept)
  unfold Takes at ih ⊢
  rw [Ahead.dropped, Ahead.skipped, List.append_nil, utf8Length_concat, Nat.add_assoc,
    ← utf8Length_cons] at ih
  rw [Ahead.dropped, Ahead.skipped, List.take_zero, utf8Length_nil, Nat.add_zero, List.map_cons,
    List.map_cons, foundFrom_of_some _ hread,
    replaceFrom_of_some g.region (gs.map Glyph.region) hread, replaceFound?]
  dsimp only
  rw [← hseen, hstart, Option.getD_some, if_pos hcode, if_pos hcode, hseen, hkept,
    slice?_declaration htext, ih, replacement_cons hle]
  simp

theorem takes_skipped {d : Declaration} {rest : List Char}
    (hglyphs : glyphs text = seen ++ g :: gs) (hseen : seen.map Glyph.char = done ++ kept)
    (hread : (if afterWord then none else form.read? (g.char :: gs.map Glyph.char)) =
      some (d, rest)) (hcode : g.region ≠ .code)
    (ih : Takes form text (.kept ((gs.map Glyph.char).length - rest.length)) (isWord g.char) done
      (kept ++ [g.char]) gs) :
    Takes form text .nothing afterWord done kept (g :: gs) := by
  have hstart := byteRegions_getElem? hglyphs
  unfold Takes at ih ⊢
  rw [Ahead.dropped, Ahead.skipped, List.take_zero, utf8Length_nil, Nat.add_zero,
    ← List.append_assoc, utf8Length_concat] at ih
  rw [Ahead.dropped, Ahead.skipped, List.take_zero, utf8Length_nil, Nat.add_zero, List.map_cons,
    List.map_cons, foundFrom_of_some _ hread,
    replaceFrom_of_some g.region (gs.map Glyph.region) hread, replaceFound?]
  dsimp only
  rw [← hseen, hstart, Option.getD_some, if_neg hcode, if_neg hcode, hseen, ih, List.append_assoc,
    List.singleton_append]

/-- A character at which no declaration is under way. -/
theorem takes_nothing (hglyphs : glyphs text = seen ++ g :: gs)
    (hseen : seen.map Glyph.char = done ++ kept)
    (ih : ∀ (after : Ahead) (done' kept' : List Char), after.dropped = 0 ∨ kept' = [] →
      done' ++ kept' = done ++ kept ++ [g.char] →
        Takes form text after (isWord g.char) done' kept' gs) :
    Takes form text .nothing afterWord done kept (g :: gs) := by
  cases hread : if afterWord then none else form.read? (g.char :: gs.map Glyph.char) with
  | none =>
    exact takes_kept (ih .nothing done (kept ++ [g.char]) (.inl rfl) (by simp)) rfl rfl
      (fun offset => foundFrom_of_none offset hread) (replaceFrom_of_none hread)
  | some read =>
    by_cases hcode : g.region = .code
    · exact takes_replaced hglyphs hseen hread hcode (ih _ _ [] (.inr rfl) (by simp))
    · exact takes_skipped hglyphs hseen hread hcode (ih _ _ _ (.inl rfl) (by simp))

theorem takes (hglyphs : glyphs text = seen ++ gs) (hseen : seen.map Glyph.char = done ++ kept)
    (hahead : ahead.dropped = 0 ∨ kept = []) : Takes form text ahead afterWord done kept gs := by
  induction gs generalizing seen done kept ahead afterWord with
  | nil =>
    have htext : text = done ++ kept ++ [] := by
      rw [← map_char_glyphs text, hglyphs, List.append_nil, hseen, List.append_nil]
    unfold Takes
    simp only [List.map_nil, List.take_nil, utf8Length_nil, Nat.add_zero, foundFrom, replaceFound?,
      replaceFrom, List.append_nil]
    exact slice?_of_append htext rfl (by rw [htext]; simp)
  | cons g gs ih =>
    have hnext (after : Ahead) (done' kept' : List Char) (h : after.dropped = 0 ∨ kept' = [])
        (hjoin : done' ++ kept' = done ++ kept ++ [g.char]) :
        Takes form text after (isWord g.char) done' kept' gs := by
      have hglyphs : glyphs text = seen ++ [g] ++ gs := by rw [hglyphs]; simp
      exact ih hglyphs (by simp [hseen, hjoin]) h
    cases ahead with
    | nothing => exact takes_nothing hglyphs hseen hnext
    | kept n =>
      cases n with
      | zero => exact takes_nothing hglyphs hseen hnext
      | succ n =>
        exact takes_kept (hnext (.kept n) done (kept ++ [g.char]) (.inl rfl) (by simp)) rfl rfl
          (fun _ => rfl) rfl
    | replaced n =>
      cases n with
      | zero => exact takes_nothing hglyphs hseen hnext
      | succ n =>
        obtain rfl : kept = [] := hahead.resolve_left (Nat.succ_ne_zero n)
        have h := hnext (.replaced n) (done ++ [g.char]) [] (.inr rfl) (by simp)
        have hlast : utf8Length (done ++ [g.char]) + utf8Length ((gs.map Glyph.char).take n) =
            utf8Length done + utf8Length (((g :: gs).map Glyph.char).take (n + 1)) := by
          simp [Nat.add_assoc]
        have hoffset : utf8Length (done ++ [g.char] ++ []) =
            utf8Length (done ++ []) + g.char.utf8Size := by simp
        unfold Takes at h
        rw [Ahead.dropped, hlast, hoffset] at h
        exact h

end Replacing

theorem replaceForm?_eq (text : List Char) (form : Form) :
    replaceForm? text form = some (replaceForm text form) := by
  have hglyphs : glyphs text = [] ++ glyphs text := rfl
  have h : Takes form text .nothing false [] [] (glyphs text) := takes hglyphs rfl (.inl rfl)
  unfold Takes at h
  rw [map_char_glyphs] at h
  rw [replaceForm?, scan?_eq, Option.bind_some]
  exact h

end SnippetRunner.Script
