import SnippetRunner.Proofs.Source.Encoded

/-
  The scan of a script by index. It goes over the bytes once, writes into a table of regions that
  starts out as code, and moves on by two bytes where it has read a mark of two or an escape. A
  write outside the table is none. `scan?_eq`: no write is, and the table ends up with the
  regions that the lexer gives, one byte at a time.
-/
namespace SnippetRunner.Source

open SnippetRunner.Text

/-- What the scan is inside of between two turns. -/
inductive ScanMode where
  | code
  | quoted (quote : Char)
  | template
  | lineComment
  | blockComment
  deriving DecidableEq, Repr

/-- The mode, and the open braces as the lexer counts them. -/
structure Scanner where
  mode : ScanMode
  substitutions : List Nat
  braces : Nat
  deriving DecidableEq, Repr

/-- One turn of the scan: the regions that it writes from its byte on, whether it moves on by two
bytes, and the state in which it does. -/
structure Turn where
  written : List Region
  skips : Bool
  after : Scanner
  deriving DecidableEq, Repr

namespace Scanner

def initial : Scanner := ⟨.code, [], 0⟩

def turnCode (s : Scanner) (b : Char) (next : Option Char) : Turn :=
  if b = '/' && next = some '/' then ⟨[.lineComment], false, { s with mode := .lineComment }⟩
  else if b = '/' && next = some '*' then
    ⟨[.blockComment, .blockComment], true, { s with mode := .blockComment }⟩
  else if b = '\'' || b = '"' then ⟨[.string], false, { s with mode := .quoted b }⟩
  else if b = '\x60' then ⟨[.template], false, { s with mode := .template }⟩
  else if b = '{' then ⟨[], false, { s with braces := s.braces + 1 }⟩
  else if b = '}' then
    if s.substitutions.head? = some s.braces then
      ⟨[.template], false, ⟨.template, s.substitutions.tail, s.braces⟩⟩
    else ⟨[], false, { s with braces := s.braces - 1 }⟩
  else ⟨[], false, s⟩

/-- An escape covers the next byte, if there is one. -/
def turnEscape (s : Scanner) (region : Region) (next : Option Char) : Turn :=
  ⟨if next.isSome then [region, region] else [region], true, s⟩

def turnQuoted (s : Scanner) (quote b : Char) (next : Option Char) : Turn :=
  if b = '\\' then s.turnEscape .string next
  else if b = quote then ⟨[.string], false, { s with mode := .code }⟩
  else if b = '\n' then ⟨[.code], false, { s with mode := .code }⟩
  else ⟨[.string], false, s⟩

def turnTemplate (s : Scanner) (b : Char) (next : Option Char) : Turn :=
  if b = '\\' then s.turnEscape .template next
  else if b = '\x60' then ⟨[.template], false, { s with mode := .code }⟩
  else if b = '$' && next = some '{' then
    ⟨[.template, .template], true, ⟨.code, s.braces :: s.substitutions, s.braces⟩⟩
  else ⟨[.template], false, s⟩

/-- The turn at the byte `b`, with `next` the byte after it. -/
def turn (s : Scanner) (b : Char) (next : Option Char) : Turn :=
  match s.mode with
  | .code => s.turnCode b next
  | .quoted quote => s.turnQuoted quote b next
  | .template => s.turnTemplate b next
  | .lineComment =>
    if b = '\n' then ⟨[], false, { s with mode := .code }⟩ else ⟨[.lineComment], false, s⟩
  | .blockComment =>
    if b = '*' && next = some '/' then
      ⟨[.blockComment, .blockComment], true, { s with mode := .code }⟩
    else ⟨[.blockComment], false, s⟩

end Scanner

/-- Writes regions into a table from place `i` on, if all of their places are in it. -/
def writeFrom? (i : Nat) : List Region → List Region → Option (List Region)
  | [], table => some table
  | r :: rs, table => if i < table.length then writeFrom? (i + 1) rs (table.set i r) else none

/-- Scans the bytes from place `i` on. -/
def scanFrom? (bytes : List Char) (s : Scanner) (i : Nat) (table : List Region) :
    Option (List Region) :=
  if h : i < bytes.length then
    let turn := s.turn bytes[i] bytes[i + 1]?
    (writeFrom? i turn.written table).bind fun table =>
      scanFrom? bytes turn.after (i + 1 + turn.skips.toNat) table
  else some table
termination_by bytes.length - i

/-- The regions of the bytes of a script. -/
def scan? (source : List Char) : Option (List Region) :=
  scanFrom? (bytesOf source) .initial 0 (List.replicate (bytesOf source).length .code)

/-! ## The turns of the lexer -/

def ScanMode.mode : ScanMode → Mode
  | code => .code
  | quoted quote => .quoted quote
  | template => .template
  | lineComment => .lineComment
  | blockComment => .blockComment

namespace Scanner

/-- The lexer in the same state. -/
def lexer (s : Scanner) : Lexer := ⟨s.mode.mode, s.substitutions, s.braces⟩

/-- What a turn leaves in the table, where it writes nothing too. -/
def Leaves (s : Scanner) (b : Char) (more : List Char) (t : Turn) : Prop :=
  ∃ rs, rs.length = min (1 + t.skips.toNat) (more.length + 1) ∧
    (t.written = rs ∨ t.written = [] ∧ rs = [.code]) ∧
    (s.lexer.glyphsFrom (b :: more)).map Glyph.region =
      rs ++ (t.after.lexer.glyphsFrom (more.drop t.skips.toNat)).map Glyph.region

theorem leaves_of_step {s after : Scanner} {b : Char} {more : List Char} {region : Region}
    {written : List Region} (h : s.lexer.step b more.head? = (region, after.lexer))
    (hw : written = [region] ∨ written = [] ∧ region = .code) :
    s.Leaves b more ⟨written, false, after⟩ := by
  refine ⟨[region], ?_, ?_, ?_⟩
  · simp
  · simpa using hw
  · rw [Lexer.glyphsFrom, h]
    rfl

theorem leaves_of_steps {s after : Scanner} {b c : Char} {more : List Char} {region : Region}
    {l : Lexer} (h : s.lexer.step b (some c) = (region, l))
    (h' : l.step c more.head? = (region, after.lexer)) :
    s.Leaves b (c :: more) ⟨[region, region], true, after⟩ := by
  refine ⟨[region, region], ?_, Or.inl rfl, ?_⟩
  · simp
  · rw [Lexer.glyphsFrom, Lexer.glyphsFrom, List.head?_cons, h, h']
    rfl

theorem leaves_turnEscape {s : Scanner} {b : Char} {more : List Char} {region : Region} {l : Lexer}
    (h : ∀ next, s.lexer.step b next = (region, l))
    (h' : ∀ c next, l.step c next = (region, s.lexer)) :
    s.Leaves b more (s.turnEscape region more.head?) := by
  cases more with
  | nil =>
    refine ⟨[region], rfl, Or.inl rfl, ?_⟩
    rw [Lexer.glyphsFrom, h]
    rfl
  | cons c more => exact leaves_of_steps (h _) (h' c _)

/-- A closing brace, which ends a template expression where the braces in it are closed. -/
theorem leaves_closeBrace {substitutions : List Nat} {braces : Nat} {b : Char} {more : List Char}
    (hstep : (lexer ⟨.code, substitutions, braces⟩).step b more.head? =
      Lexer.closeBrace ⟨.code, substitutions, braces⟩) :
    Leaves ⟨.code, substitutions, braces⟩ b more
      (if substitutions.head? = some braces then
        ⟨[.template], false, ⟨.template, substitutions.tail, braces⟩⟩
      else ⟨[], false, ⟨.code, substitutions, braces - 1⟩⟩) := by
  rw [Lexer.closeBrace] at hstep
  cases substitutions with
  | nil =>
    rw [if_neg (by simp)]
    exact leaves_of_step hstep (.inr ⟨rfl, rfl⟩)
  | cons depth outer =>
    dsimp only at hstep
    by_cases hd : depth = braces
    · rw [if_pos hd] at hstep
      rw [if_pos (by simp [hd])]
      exact leaves_of_step hstep (.inl rfl)
    · rw [if_neg hd] at hstep
      rw [if_neg (by simp [hd])]
      exact leaves_of_step hstep (.inr ⟨rfl, rfl⟩)

theorem leaves_turnCode {s : Scanner} (hm : s.mode = .code) (b : Char) (more : List Char) :
    s.Leaves b more (s.turnCode b more.head?) := by
  obtain ⟨mode, substitutions, braces⟩ := s
  obtain rfl : mode = .code := hm
  have hstep (next : Option Char) : (lexer ⟨.code, substitutions, braces⟩).step b next =
      Lexer.stepCode ⟨.code, substitutions, braces⟩ b next := Lexer.step_code rfl
  unfold turnCode
  split
  · next h => exact leaves_of_step (by rw [hstep, Lexer.stepCode, if_pos h]; rfl) (.inl rfl)
  next hline =>
  split
  · next h =>
    simp only [Bool.and_eq_true, decide_eq_true_eq] at h
    obtain ⟨tail, rfl⟩ := List.head?_eq_some_iff.mp h.2
    refine leaves_of_steps (l := ⟨.commentOpen, substitutions, braces⟩) ?_ rfl
    rw [hstep, Lexer.stepCode, if_neg (by simp), if_pos (by simp [h.1])]
  next hblock =>
  have hrest := hstep more.head?
  rw [Lexer.stepCode, if_neg hline, if_neg hblock] at hrest
  split
  · next h => exact leaves_of_step (by rw [hrest, if_pos h]; rfl) (.inl rfl)
  next hquote =>
  rw [if_neg hquote] at hrest
  split
  · next h => exact leaves_of_step (by rw [hrest, if_pos h]; rfl) (.inl rfl)
  next htick =>
  rw [if_neg htick] at hrest
  split
  · next h => exact leaves_of_step (by rw [hrest, if_pos h]; rfl) (.inr ⟨rfl, rfl⟩)
  next hopen =>
  rw [if_neg hopen] at hrest
  split
  · next h =>
    rw [if_pos h] at hrest
    exact leaves_closeBrace hrest
  · next h => exact leaves_of_step (by rw [hrest, if_neg h]; rfl) (.inr ⟨rfl, rfl⟩)

theorem leaves_turnQuoted {s : Scanner} {quote : Char} (hm : s.mode = .quoted quote) (b : Char)
    (more : List Char) : s.Leaves b more (s.turnQuoted quote b more.head?) := by
  obtain ⟨mode, substitutions, braces⟩ := s
  obtain rfl : mode = .quoted quote := hm
  have hstep (next : Option Char) : (lexer ⟨.quoted quote, substitutions, braces⟩).step b next =
      Lexer.stepQuoted ⟨.quoted quote, substitutions, braces⟩ quote b := Lexer.step_quoted rfl
  unfold turnQuoted
  split
  · next h =>
    refine leaves_turnEscape (l := ⟨.quotedEscape quote, substitutions, braces⟩) (fun next => ?_)
      fun c next => rfl
    rw [hstep, Lexer.stepQuoted, if_pos h]
  next hescape =>
  split
  · next h =>
    exact leaves_of_step (by rw [hstep, Lexer.stepQuoted, if_neg hescape, if_pos h]; rfl) (.inl rfl)
  next hquote =>
  have hrest := hstep more.head?
  rw [Lexer.stepQuoted, if_neg hescape, if_neg hquote] at hrest
  split
  · next h => exact leaves_of_step (by rw [hrest, if_pos h]; rfl) (.inl rfl)
  · next h => exact leaves_of_step (by rw [hrest, if_neg h]; rfl) (.inl rfl)

theorem leaves_turnTemplate {s : Scanner} (hm : s.mode = .template) (b : Char)
    (more : List Char) : s.Leaves b more (s.turnTemplate b more.head?) := by
  obtain ⟨mode, substitutions, braces⟩ := s
  obtain rfl : mode = .template := hm
  have hstep (next : Option Char) : (lexer ⟨.template, substitutions, braces⟩).step b next =
      Lexer.stepTemplate ⟨.template, substitutions, braces⟩ b next := Lexer.step_template rfl
  unfold turnTemplate
  split
  · next h =>
    refine leaves_turnEscape (l := ⟨.templateEscape, substitutions, braces⟩) (fun next => ?_)
      fun c next => rfl
    rw [hstep, Lexer.stepTemplate, if_pos h]
  next hescape =>
  split
  · next h =>
    exact leaves_of_step
      (by rw [hstep, Lexer.stepTemplate, if_neg hescape, if_pos h]; rfl) (.inl rfl)
  next htick =>
  split
  · next h =>
    simp only [Bool.and_eq_true, decide_eq_true_eq] at h
    obtain ⟨tail, rfl⟩ := List.head?_eq_some_iff.mp h.2
    refine leaves_of_steps (l := ⟨.substitutionOpen, substitutions, braces⟩) ?_ rfl
    rw [hstep, Lexer.stepTemplate, if_neg hescape, if_neg htick, if_pos (by simp [h.1])]
  · next h =>
    refine leaves_of_step ?_ (.inl rfl)
    rw [hstep, Lexer.stepTemplate, if_neg hescape, if_neg htick, if_neg h]
    rfl

theorem leaves_turn (s : Scanner) (b : Char) (more : List Char) :
    s.Leaves b more (s.turn b more.head?) := by
  unfold turn
  split
  · next hm => exact leaves_turnCode hm b more
  · next quote hm => exact leaves_turnQuoted hm b more
  · next hm => exact leaves_turnTemplate hm b more
  · next hm =>
    have hstep : s.lexer.mode = .lineComment := by rw [lexer, hm]; rfl
    split
    · next h =>
      refine leaves_of_step ?_ (.inr ⟨rfl, rfl⟩)
      rw [Lexer.step_lineComment hstep, if_pos h]
      rfl
    · next h => exact leaves_of_step (by rw [Lexer.step_lineComment hstep, if_neg h]) (.inl rfl)
  · next hm =>
    have hstep : s.lexer.mode = .blockComment := by rw [lexer, hm]; rfl
    split
    · next h =>
      have hhead := h
      simp only [Bool.and_eq_true, decide_eq_true_eq] at hhead
      obtain ⟨tail, rfl⟩ := List.head?_eq_some_iff.mp hhead.2
      refine leaves_of_steps (l := ⟨.commentClose, s.substitutions, s.braces⟩) ?_ rfl
      rw [Lexer.step_blockComment hstep, if_pos (by simp [hhead.1])]
      rfl
    · next h => exact leaves_of_step (by rw [Lexer.step_blockComment hstep, if_neg h]) (.inl rfl)

end Scanner

/-! ## The table -/

/-- Writing replaces what stands in the table, as far as it goes. -/
theorem writeFrom?_append (done : List Region) {rs old : List Region} (rest : List Region)
    (h : rs.length = old.length) :
    writeFrom? done.length rs (done ++ (old ++ rest)) = some (done ++ (rs ++ rest)) := by
  induction rs generalizing done old with
  | nil =>
    obtain rfl := List.length_eq_zero_iff.mp h.symm
    rfl
  | cons r rs ih =>
    cases old with
    | nil => cases h
    | cons o old =>
      rw [writeFrom?, if_pos (by simp), List.cons_append, List.set_append_right _ _ (Nat.le_refl _),
        Nat.sub_self, List.set_cons_zero]
      have hlength : rs.length = old.length := by simpa using h
      have hnext := ih (done ++ [r]) hlength
      simpa using hnext

/-- The rest of the scan fills the rest of the table. -/
theorem scanFrom?_eq {bytes : List Char} {s : Scanner} {i : Nat} {done : List Region}
    (h : done.length = min i bytes.length) :
    scanFrom? bytes s i (done ++ List.replicate (bytes.drop i).length .code) =
      some (done ++ (s.lexer.glyphsFrom (bytes.drop i)).map Glyph.region) := by
  induction hn : bytes.length - i using Nat.strongRecOn generalizing s i done with
  | _ n ih =>
    rw [scanFrom?]
    split
    · next hi =>
      have hdrop := List.drop_eq_getElem_cons hi
      have hhead : bytes[i + 1]? = (bytes.drop (i + 1)).head? := List.head?_drop.symm
      rw [hhead]
      obtain ⟨rs, hlength, hwritten, hregions⟩ := s.leaves_turn bytes[i] (bytes.drop (i + 1))
      generalize s.turn bytes[i] (bytes.drop (i + 1)).head? = t at *
      have hdone : done.length = i := by omega
      rw [List.length_drop] at hlength
      have htable : List.replicate (bytes.drop i).length Region.code =
          List.replicate rs.length .code ++
            List.replicate (bytes.drop (i + 1 + t.skips.toNat)).length .code := by
        rw [List.replicate_append_replicate, List.length_drop, List.length_drop]
        congr 1
        omega
      have hwrite : writeFrom? i t.written (done ++ List.replicate (bytes.drop i).length .code) =
          some ((done ++ rs) ++
            List.replicate (bytes.drop (i + 1 + t.skips.toNat)).length .code) := by
        rw [htable, List.append_assoc]
        rcases hwritten with hw | ⟨hw, rfl⟩
        · rw [hw, ← hdone]
          exact writeFrom?_append done _ (by simp)
        · rw [hw]
          rfl
      dsimp only
      rw [hwrite, hdrop, hregions, List.drop_drop, ← List.append_assoc]
      refine ih _ (by omega) ?_ rfl
      rw [List.length_append]
      omega
    · next hi =>
      rw [List.drop_eq_nil_of_le (by omega)]
      rfl

theorem scan?_eq (source : List Char) :
    scan? source = some ((byteGlyphs source).map Glyph.region) := by
  have hnone : ([] : List Region).length = min 0 (bytesOf source).length := by simp
  have h := scanFrom?_eq (s := .initial) hnone
  rwa [List.drop_zero, List.nil_append, List.nil_append] at h

end SnippetRunner.Source
