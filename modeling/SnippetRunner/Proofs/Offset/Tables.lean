import SnippetRunner.Proofs.Offset.Search
import SnippetRunner.Proofs.Script.CallArguments

/-
  What the walk leaves behind for its readers: the table of boundaries and the table of line
  depths. Both are told at the bytes of the script. `bracketsOpen` counts the brackets open behind
  some of them without the rest of the walk, `WalkTables` says by it what the entries of the tables
  are, and that a search by halving among the boundaries finds one exactly if there is one.
-/
namespace SnippetRunner.Script

open SnippetRunner.Text SnippetRunner.Source

/-! ## Search by halving -/

/-- All places before the one that is found pass, and none from it on. -/
theorem firstFailing_spec {passes : Nat → Bool}
    (h : ∀ i j, i ≤ j → passes j = true → passes i = true) (low high : Nat) :
    (∀ i, low ≤ i → i < firstFailing passes low high → passes i = true) ∧
      ∀ i, firstFailing passes low high ≤ i → i < high → passes i = false := by
  fun_induction firstFailing passes low high with
  | case1 low high hlt middle hpasses ih =>
    refine ⟨fun i hlow hi => ?_, ih.2⟩
    by_cases hmiddle : i ≤ middle
    · exact h i middle hmiddle hpasses
    · exact ih.1 i (by omega) hi
  | case2 low high hlt middle hfails ih =>
    refine ⟨ih.1, fun i hi hhigh => ?_⟩
    by_cases hmiddle : middle ≤ i
    · exact Bool.eq_false_iff.mpr fun hpasses => hfails (h middle i hmiddle hpasses)
    · exact ih.2 i hi (by omega)
  | case3 low high hle => exact ⟨fun i hlow hi => by omega, fun i hi hhigh => by omega⟩

/-- The entries of an ascending table that are below a bound come first. -/
theorem below_of_le {table : List Nat} (h : table.Pairwise (· < ·)) {bound i j : Nat} (hij : i ≤ j)
    (hj : table[j]?.any (· < bound) = true) : table[i]?.any (· < bound) = true := by
  obtain ⟨y, hy, hlt⟩ := (Option.any_eq_true _ _).mp hj
  obtain ⟨hjlen, rfl⟩ := List.getElem?_eq_some_iff.mp hy
  have hle : table[i] ≤ table[j] := by
    rcases Nat.lt_or_eq_of_le hij with hij | rfl
    · exact Nat.le_of_lt (List.pairwise_iff_getElem.mp h i j (by omega) hjlen hij)
    · exact Nat.le_refl _
  have hlt : table[j] < bound := by simpa using hlt
  rw [List.getElem?_eq_getElem (by omega), Option.any_some, decide_eq_true_eq]
  omega

/-- In an ascending table the search by halving finds an entry if there is one. -/
theorem hasEntryIn_iff {table : List Nat} (h : table.Pairwise (· < ·)) (start stop : Nat) :
    hasEntryIn table.toArray start stop = true ↔ ∃ x ∈ table, start ≤ x ∧ x < stop := by
  obtain ⟨passes, hpasses⟩ : ∃ passes : Nat → Bool,
    passes = fun i => table.toArray[i]?.any (· < start) := ⟨_, rfl⟩
  obtain ⟨first, hfirst⟩ : ∃ first, first = firstFailing passes 0 table.toArray.size := ⟨_, rfl⟩
  have hmono : ∀ i j, i ≤ j → passes j = true → passes i = true := by
    intro i j hij hj
    simp only [hpasses, List.getElem?_toArray] at hj ⊢
    exact below_of_le h hij hj
  obtain ⟨hbelow, hfrom⟩ := firstFailing_spec hmono 0 table.toArray.size
  rw [← hfirst, hpasses] at hbelow hfrom
  simp only [List.getElem?_toArray, List.size_toArray] at hbelow hfrom
  rw [hasEntryIn, ← hpasses, ← hfirst, List.getElem?_toArray, Option.any_eq_true]
  simp only [decide_eq_true_eq]
  constructor
  · rintro ⟨x, hx, hstop⟩
    obtain ⟨hlen, rfl⟩ := List.getElem?_eq_some_iff.mp hx
    refine ⟨_, List.getElem_mem hlen, ?_, hstop⟩
    simpa [List.getElem?_eq_getElem hlen] using hfrom first (Nat.le_refl _) hlen
  · rintro ⟨x, hx, hstart, hstop⟩
    obtain ⟨i, hlen, rfl⟩ := List.getElem_of_mem hx
    -- no entry from `start` on stands before the one that is found
    have hle : first ≤ i := by
      by_contra hlt
      have hpasses := hbelow i (Nat.zero_le _) (by omega)
      rw [List.getElem?_eq_getElem hlen, Option.any_some, decide_eq_true_eq] at hpasses
      omega
    have hfound : table[first]? = some table[first] := List.getElem?_eq_getElem (by omega)
    refine ⟨_, hfound, Nat.lt_of_le_of_lt ?_ hstop⟩
    rcases Nat.lt_or_eq_of_le hle with hlt | heq
    · exact Nat.le_of_lt (List.pairwise_iff_getElem.mp h first i (by omega) hlen hlt)
    · exact Nat.le_of_eq (by simp only [heq])

/-! ## The walk over the bytes -/

/-- How many brackets are open behind a text: an opening one in code counts up, and a closing one
of any kind down, but not below zero. -/
def bracketsOpen (gs : List Glyph) : Nat := gs.foldl depthBehind 0

theorem depth_run_initial (gs : List Glyph) :
    (Progress.initial.run gs).nesting.depth = bracketsOpen gs := depth_run .initial gs

/-- The cells of the bytes are those of a walk over the bytes. -/
theorem bytes_eq_cellsTo (source : List Char) :
    (encoded source).bytes = Progress.initial.cellsTo (byteGlyphs source) [] := by
  rw [encoded, ← cells_bytesOf, cells_eq_cellsTo]
  rfl

section

variable {source : List Char} {before after : List Glyph}

/-- The cells of the bytes around a place. -/
theorem bytes_of_append (h : byteGlyphs source = before ++ after) :
    (encoded source).bytes = Progress.initial.cellsTo before after ++
      (Progress.initial.run before).cellsTo after [] := by
  rw [bytes_eq_cellsTo, h, Progress.cellsTo_append, List.append_nil]

/-- The cell of the byte behind `before`. -/
theorem getElem?_bytes {g : Glyph} (h : byteGlyphs source = before ++ g :: after) :
    (encoded source).bytes[before.length]? =
      some ((Progress.initial.run before).cellAt g after) := by
  rw [bytes_of_append h, List.getElem?_append_right (by rw [Progress.length_cellsTo]),
    Progress.length_cellsTo, Nat.sub_self, Progress.cellsTo, List.append_nil]
  rfl

/-- The cell at an offset, between the bytes before and behind it. -/
theorem exists_of_getElem?_bytes {offset : Nat} {c : Cell}
    (h : (encoded source).bytes[offset]? = some c) :
    ∃ before g after, byteGlyphs source = before ++ g :: after ∧ before.length = offset ∧
      c = (Progress.initial.run before).cellAt g after := by
  have hlength : offset < (byteGlyphs source).length := by
    rw [← Progress.length_cellsTo .initial _ [], ← bytes_eq_cellsTo]
    exact (List.getElem?_eq_some_iff.mp h).1
  have hsplit : byteGlyphs source = (byteGlyphs source).take offset ++
      (byteGlyphs source)[offset] :: (byteGlyphs source).drop (offset + 1) := by
    rw [← List.drop_eq_getElem_cons hlength, List.take_append_drop]
  have htake : ((byteGlyphs source).take offset).length = offset :=
    List.length_take_of_le (Nat.le_of_lt hlength)
  refine ⟨_, _, _, hsplit, htake, ?_⟩
  have hcell := getElem?_bytes hsplit
  rw [htake, h] at hcell
  exact Option.some.inj hcell

end

/-! ## The table of boundaries -/

/-- The offsets of boundaries among characters are their indices among bytes. -/
theorem offsetsOf_eq_findIdxs {source : List Char} {cs : List Cell} (start : Nat)
    (h : ∀ c ∈ cs, c ∈ cells source) :
    offsetsOf Cell.char Cell.boundary start cs =
      (cs.flatMap Cell.bytes).findIdxs Cell.boundary start := by
  induction cs generalizing start with
  | nil => rfl
  | cons c cs ih =>
    have hc := h c (List.mem_cons_self ..)
    have hrest := ih (start + c.char.utf8Size) fun d hd => h d (List.mem_cons_of_mem _ hd)
    rw [offsetsOf, List.flatMap_cons, List.findIdxs_append, Cell.length_bytes, hrest]
    cases hboundary : c.boundary with
    | true =>
      rw [Cell.bytes_of_not_isWide (not_isWide_of_boundary hc hboundary), List.findIdxs_singleton,
        hboundary]
      rfl
    | false =>
      have hnone : c.bytes.findIdxs Cell.boundary start = [] :=
        List.findIdxs_eq_nil_iff.mpr fun b hb => (boundary_of_mem_bytes hc hb).trans hboundary
      rw [hnone]
      rfl

theorem boundaries_eq_findIdxs (source : List Char) :
    boundaries source = (encoded source).bytes.findIdxs Cell.boundary :=
  offsetsOf_eq_findIdxs 0 fun _ hc => hc

theorem pairwise_boundaries (source : List Char) : (boundaries source).Pairwise (· < ·) := by
  rw [boundaries_eq_findIdxs]
  exact List.pairwise_findIdxs

theorem mem_boundaries_iff_bytes {source : List Char} {offset : Nat} :
    offset ∈ boundaries source ↔
      ∃ c, (encoded source).bytes[offset]? = some c ∧ c.boundary = true := by
  rw [boundaries_eq_findIdxs, List.mem_findIdxs_iff_exists_getElem_pos]
  constructor
  · rintro ⟨hlength, hboundary⟩
    exact ⟨_, List.getElem?_eq_getElem hlength, hboundary⟩
  · rintro ⟨c, hget, hboundary⟩
    obtain ⟨hlength, rfl⟩ := List.getElem?_eq_some_iff.mp hget
    exact ⟨hlength, hboundary⟩

/-- Whether a byte ends a statement is told by the brackets open before it, by the call that ends
there, and by what follows. -/
theorem mem_boundaries_iff_glyph {source : List Char} {before after : List Glyph} {g : Glyph}
    (h : byteGlyphs source = before ++ g :: after) :
    before.length ∈ boundaries source ↔ g.isCode = true ∧ bracketsOpen before = 0 ∧
      ((g.char = ';' ∧ (Progress.initial.run before).nesting.afterMultilineCall = false) ∨
        (g.char = '\n' ∧ continuesIn after = false)) := by
  have hempty : (Progress.initial.run before).nesting.opened.isEmpty = true ↔
      bracketsOpen before = 0 := by
    rw [← depth_run_initial, Nesting.depth, List.length_eq_zero_iff, List.isEmpty_iff]
  simp only [mem_boundaries_iff_bytes, getElem?_bytes h, Option.some.injEq, exists_eq_left',
    Progress.cellAt, Nesting.isBoundary, Bool.and_eq_true, Bool.or_eq_true, decide_eq_true_eq,
    Bool.not_eq_true', hempty, and_assoc]

/-- Reading the boundaries off the bytes and searching the table by halving is the same. -/
theorem hasBoundary_encoded (source : List Char) (start stop : Nat) :
    (encoded source).hasBoundary start stop = hasBoundaryIn source start stop := by
  rw [Bool.eq_iff_iff, hasBoundaryIn, hasEntryIn_iff (pairwise_boundaries source),
    Encoded.hasBoundary, List.any_eq_true]
  simp only [mem_boundaries_iff_bytes]
  simp only [List.mem_iff_getElem?, List.getElem?_drop, List.getElem?_take]
  constructor
  · rintro ⟨c, ⟨i, hget⟩, hboundary⟩
    split at hget
    · next hlt => exact ⟨start + i, ⟨c, hget, hboundary⟩, Nat.le_add_right .., hlt⟩
    · cases hget
  · rintro ⟨offset, ⟨c, hget, hboundary⟩, hstart, hstop⟩
    refine ⟨c, ⟨offset - start, ?_⟩, hboundary⟩
    rw [Nat.add_sub_cancel' hstart, if_pos hstop, hget]

/-! ## The table of line depths -/

theorem lineDepths_eq_bytes (source : List Char) :
    lineDepths source = 0 :: endDepths 0 (encoded source).bytes := by
  rw [lineDepths_eq, encoded, endDepths, endDepths, filter_newline_flatMap_bytes,
    getLast?_flatMap_bytes uniform_depthAfter]

theorem length_lineDepths (source : List Char) :
    (lineDepths source).length = newlines source + 2 := by
  have hcount : ((cells source).filter (·.char = '\n')).length = newlines source := by
    conv_rhs => rw [← map_char_cells source]
    rw [← List.countP_eq_length_filter, newlines, List.count, List.countP_map]
    rfl
  rw [lineDepths_eq, endDepths, List.length_cons, List.length_append, List.length_map, hcount]
  rfl

theorem length_filter_newline_cellsTo (p : Progress) (gs following : List Glyph) :
    ((p.cellsTo gs following).filter (·.char = '\n')).length = newlines (gs.map Glyph.char) := by
  rw [← p.map_char_cellsTo gs following, ← List.countP_eq_length_filter, newlines, List.count,
    List.countP_map]
  rfl

/-- The number of brackets open behind a line end is the entry for the line that begins there. -/
theorem lineDepths_of_feed {source : List Char} {before after : List Glyph} {feed : Glyph}
    (h : byteGlyphs source = before ++ feed :: after) (hfeed : feed.char = '\n') :
    (lineDepths source)[newlines ((before ++ [feed]).map Glyph.char)]? =
      some (bracketsOpen (before ++ [feed])) := by
  have hcell : ((Progress.initial.run before).cellAt feed after).char = '\n' := hfeed
  have hnumber : newlines ((before ++ [feed]).map Glyph.char) =
      newlines (before.map Glyph.char) + 1 := by
    simp [newlines, hfeed]
  rw [lineDepths_eq_bytes, hnumber, List.getElem?_cons_succ, endDepths, bytes_of_append h,
    Progress.cellsTo, List.append_nil, List.filter_append, List.filter_cons_of_pos (by simpa),
    List.map_append, List.append_assoc,
    ← length_filter_newline_cellsTo .initial before (feed :: after),
    ← List.length_map Cell.depthAfter, List.getElem?_append_right (Nat.le_refl _), Nat.sub_self,
    ← depth_run_initial, Progress.run_concat]
  rfl

theorem getLast?_lineDepths (source : List Char) :
    (lineDepths source).getLast? = some (bracketsOpen (byteGlyphs source)) := by
  rw [lineDepths_eq_bytes, endDepths, ← List.cons_append, List.getLast?_concat, bytes_eq_cellsTo,
    ← depth_run_initial]
  cases (byteGlyphs source).eq_nil_or_concat' with
  | inl hnil =>
    rw [hnil]
    rfl
  | inr hconcat =>
    obtain ⟨init, g, hglyphs⟩ := hconcat
    rw [hglyphs, Progress.getLast?_cellsTo, Progress.run_concat]
    rfl

/-! ## Both tables -/

/-- What the readers of the tables of a script rely on. Offsets are indices of bytes. -/
structure WalkTables (source : List Char) : Prop where
  ascending : (boundaries source).Pairwise (· < ·)
  entry : ∀ offset ∈ boundaries source, ∃ before g after,
    byteGlyphs source = before ++ g :: after ∧ before.length = offset ∧ g.isCode = true ∧
      (g.char = ';' ∨ g.char = '\n') ∧ bracketsOpen before = 0
  listed : ∀ before g after, byteGlyphs source = before ++ g :: after → g.isCode = true →
    bracketsOpen before = 0 → (before.length ∈ boundaries source ↔
      (g.char = ';' ∧ (Progress.initial.run before).nesting.afterMultilineCall = false) ∨
        (g.char = '\n' ∧ continuesIn after = false))
  size : (lineDepths source).length = newlines source + 2
  lineStart : ∀ before after, byteGlyphs source = before ++ after →
    (∀ g, before.getLast? = some g → g.char = '\n') →
      (lineDepths source)[newlines (before.map Glyph.char)]? = some (bracketsOpen before)
  final : (lineDepths source).getLast? = some (bracketsOpen (byteGlyphs source))
  search : ∀ start stop, hasBoundaryIn source start stop = true ↔
    ∃ offset ∈ boundaries source, start ≤ offset ∧ offset < stop
  read : ∀ start stop, (encoded source).hasBoundary start stop = hasBoundaryIn source start stop
  readDepth : ∀ line, (encoded source).depthAt line = ((lineDepths source)[line]?).getD 0

/-- The boundaries of a script are ascending offsets of semicolons and line ends in code, met with
no bracket open; the line depths count the brackets open at the start of every line and at the end;
and the search by halving finds a boundary between two offsets exactly if there is one. -/
theorem walk_tables (source : List Char) : WalkTables source where
  ascending := pairwise_boundaries source
  entry := by
    intro offset hmem
    obtain ⟨c, hget, -⟩ := mem_boundaries_iff_bytes.mp hmem
    obtain ⟨before, g, after, hjoin, rfl, -⟩ := exists_of_getElem?_bytes hget
    obtain ⟨hcode, hopen, hends⟩ := (mem_boundaries_iff_glyph hjoin).mp hmem
    exact ⟨before, g, after, hjoin, rfl, hcode, hends.imp And.left And.left, hopen⟩
  listed := by
    intro before g after hjoin hcode hopen
    rw [mem_boundaries_iff_glyph hjoin]
    simp only [hcode, hopen, true_and]
  size := length_lineDepths source
  lineStart := by
    intro before after hjoin hlast
    cases before.eq_nil_or_concat' with
    | inl hnil =>
      subst hnil
      rfl
    | inr hconcat =>
      obtain ⟨init, feed, rfl⟩ := hconcat
      rw [List.append_assoc, List.singleton_append] at hjoin
      exact lineDepths_of_feed hjoin (hlast feed List.getLast?_concat)
  final := getLast?_lineDepths source
  search := fun start stop => hasEntryIn_iff (pairwise_boundaries source) start stop
  read := hasBoundary_encoded source
  readDepth := depthAt_encoded source

/-- A line end in a template counts as a line, a bracket in a string does not count, and the
closing bracket that nothing opened leaves the depth at zero. -/
example : lineDepths "a;]\n(\x60\n\x60, ')'\nb".toList = [0, 0, 1, 1, 1] ∧
    boundaries "a;]\n(\x60\n\x60, ')'\nb".toList = [1] := by
  decide +kernel

end SnippetRunner.Script
