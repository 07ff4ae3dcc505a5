import SnippetRunner.Proofs.Source.Lexing

/-
  The lexer against a pushdown lexer. The pushdown lexer keeps one stack with a symbol for every
  open brace and every unfinished template expression, and it looks back: it remembers what it
  has read of a literal or comment, and asks of a quote, a line end or a dollar sign whether an
  even number of backslashes stands before it. Both give every text the same regions
  (`byteRegions_eq_pushdown`), because at every place the counter of the lexer is the number of
  braces on the stack, and the counts it keeps are the numbers of braces below each
  template expression (`Agrees`).
-/
namespace SnippetRunner.Source

open SnippetRunner.Text

namespace Pushdown

/-! ## The reference -/

inductive Symbol where
  | brace
  | substitution
  deriving DecidableEq, Repr

/-- What the text is inside of, with what was read there, last character first. A block comment
is read from its opening slash on. -/
inductive Inside where
  | code
  | string (quote : Char) (read : List Char)
  | template (read : List Char)
  | lineComment
  | blockComment (read : List Char)
  deriving DecidableEq, Repr

structure State where
  inside : Inside
  stack : List Symbol
  deriving DecidableEq, Repr

def initial : State := ⟨.code, []⟩

/-- An even number of consecutive backslashes was read last. -/
def isUnescaped (read : List Char) : Bool := (read.takeWhile (· = '\\')).length % 2 = 0

/-- An unescaped dollar sign was read last. -/
def afterDollar : List Char → Bool
  | [] => false
  | c :: read => c = '$' && isUnescaped read

/-- A star other than the one that opens the comment was read last. -/
def afterStar : List Char → Bool
  | '*' :: _ :: _ :: _ => true
  | _ => false

/-- A closing brace pops: the end of a template expression is template text again. -/
def closeBrace : List Symbol → Region × State
  | .brace :: outer => (.code, ⟨.code, outer⟩)
  | .substitution :: outer => (.template, ⟨.template [], outer⟩)
  | [] => (.code, ⟨.code, []⟩)

def stepCode (stack : List Symbol) (c : Char) (next : Option Char) : Region × State :=
  if c = '/' ∧ next = some '/' then (.lineComment, ⟨.lineComment, stack⟩)
  else if c = '/' ∧ next = some '*' then (.blockComment, ⟨.blockComment ['/'], stack⟩)
  else if c = '\'' ∨ c = '"' then (.string, ⟨.string c [], stack⟩)
  else if c = '\x60' then (.template, ⟨.template [], stack⟩)
  else if c = '{' then (.code, ⟨.code, .brace :: stack⟩)
  else if c = '}' then closeBrace stack
  else (.code, ⟨.code, stack⟩)

def stepString (stack : List Symbol) (quote : Char) (read : List Char) (c : Char) :
    Region × State :=
  if c = quote ∧ isUnescaped read then (.string, ⟨.code, stack⟩)
  else if c = '\n' ∧ isUnescaped read then (.code, ⟨.code, stack⟩)
  else (.string, ⟨.string quote (c :: read), stack⟩)

def stepTemplate (stack : List Symbol) (read : List Char) (c : Char) : Region × State :=
  if c = '\x60' ∧ isUnescaped read then (.template, ⟨.code, stack⟩)
  else if c = '{' ∧ afterDollar read then (.template, ⟨.code, .substitution :: stack⟩)
  else (.template, ⟨.template (c :: read), stack⟩)

def stepLineComment (stack : List Symbol) (c : Char) : Region × State :=
  if c = '\n' then (.code, ⟨.code, stack⟩) else (.lineComment, ⟨.lineComment, stack⟩)

def stepBlockComment (stack : List Symbol) (read : List Char) (c : Char) : Region × State :=
  if c = '/' ∧ afterStar read then (.blockComment, ⟨.code, stack⟩)
  else (.blockComment, ⟨.blockComment (c :: read), stack⟩)

/-- Reads `c`, with `next` the character after it. -/
def State.step (s : State) (c : Char) (next : Option Char) : Region × State :=
  match s.inside with
  | .code => stepCode s.stack c next
  | .string quote read => stepString s.stack quote read c
  | .template read => stepTemplate s.stack read c
  | .lineComment => stepLineComment s.stack c
  | .blockComment read => stepBlockComment s.stack read c

def State.regionsFrom (s : State) : List Char → List Region
  | [] => []
  | c :: rest => (s.step c rest.head?).1 :: regionsFrom (s.step c rest.head?).2 rest

/-- The state after `text`, where `next` follows it. -/
def State.run (s : State) : List Char → Option Char → State
  | [], _ => s
  | c :: rest, next => run (s.step c (rest.head?.or next)).2 rest next

/-- The region of every character of `text`. -/
def regions (text : List Char) : List Region := initial.regionsFrom text

/-! ## Agreement -/

/-- How many braces stand below each template expression of a stack, innermost first. -/
def bracesBelow : List Symbol → List Nat
  | [] => []
  | .brace :: outer => bracesBelow outer
  | .substitution :: outer => outer.count .brace :: bracesBelow outer

/-- The mode of the lexer against the place of the reference, in front of `next`. -/
def SamePlace (next : Option Char) : Mode → Inside → Prop
  | .code, .code => True
  | .quoted quote, .string quote' read => quote = quote' ∧ isUnescaped read = true
  | .quotedEscape quote, .string quote' read => quote = quote' ∧ isUnescaped read = false
  | .template, .template read =>
    isUnescaped read = true ∧ (afterDollar read = true → next ≠ some '{')
  | .templateEscape, .template read => isUnescaped read = false
  | .substitutionOpen, .template read => afterDollar read = true ∧ next = some '{'
  | .lineComment, .lineComment => True
  | .commentOpen, .blockComment read => read = ['/'] ∧ next = some '*'
  | .blockComment, .blockComment read =>
    2 ≤ read.length ∧ (afterStar read = true → next ≠ some '/')
  | .commentClose, .blockComment read => afterStar read = true ∧ next = some '/'
  | _, _ => False

/-- The lexer and the reference say the same in front of `next`. -/
structure Agrees (l : Lexer) (s : State) (next : Option Char) : Prop where
  place : SamePlace next l.mode s.inside
  braces : l.braces = s.stack.count .brace
  substitutions : l.substitutions = bracesBelow s.stack

theorem agrees_initial (next : Option Char) : Agrees .initial initial next :=
  ⟨trivial, rfl, rfl⟩

theorem isUnescaped_cons (c : Char) (read : List Char) :
    isUnescaped (c :: read) = if c = '\\' then !isUnescaped read else true := by
  by_cases h : c = '\\'
  · have e : ((c :: read).takeWhile (· = '\\')).length
        = (read.takeWhile (· = '\\')).length + 1 := by simp [h]
    rw [isUnescaped, isUnescaped, e, if_pos h]
    by_cases hr : (read.takeWhile (· = '\\')).length % 2 = 0
    · simp [hr]; omega
    · simp [hr]; omega
  · simp [isUnescaped, h]

/-- The count kept for the innermost template expression is at most that of all braces. -/
theorem le_count_of_bracesBelow {stack : List Symbol} {depth : Nat} {depths : List Nat}
    (h : bracesBelow stack = depth :: depths) : depth ≤ stack.count .brace := by
  induction stack with
  | nil => cases h
  | cons symbol outer ih =>
    cases symbol with
    | brace =>
      have := ih h
      rw [List.count_cons_self]
      omega
    | substitution =>
      rw [bracesBelow, List.cons.injEq] at h
      rw [← h.1]
      exact List.count_le_count_cons

theorem agrees_closeBrace {l : Lexer} {s : State} (hm : l.mode = .code)
    (hb : l.braces = s.stack.count .brace) (hs : l.substitutions = bracesBelow s.stack)
    (next : Option Char) :
    l.closeBrace.1 = (closeBrace s.stack).1 ∧
      Agrees l.closeBrace.2 (closeBrace s.stack).2 next := by
  cases h : s.stack with
  | nil =>
    rw [h] at hb hs
    have e : l.closeBrace = (.code, { l with braces := l.braces - 1 }) := by
      rw [Lexer.closeBrace, hs]; rfl
    rw [e]
    exact ⟨rfl, by rw [hm]; trivial, by simp [hb, closeBrace], hs⟩
  | cons symbol outer =>
    rw [h] at hb hs
    cases symbol with
    | brace =>
      -- more braces are open than below the innermost template expression
      have e : l.closeBrace = (.code, { l with braces := l.braces - 1 }) := by
        rw [Lexer.closeBrace]
        split
        · next depth depths hd =>
          have hle : _ ≤ outer.count .brace := le_count_of_bracesBelow (hs.symm.trans hd)
          rw [List.count_cons_self] at hb
          rw [if_neg (by omega)]
        · rfl
      rw [e]
      refine ⟨rfl, by rw [hm]; trivial, ?_, hs⟩
      simp [hb, closeBrace]
    | substitution =>
      have hc : l.braces = outer.count .brace := by simpa using hb
      have e : l.closeBrace = (.template, ⟨.template, bracesBelow outer, l.braces⟩) := by
        rw [Lexer.closeBrace, hs]
        simp [bracesBelow, hc]
      rw [e]
      exact ⟨rfl, ⟨rfl, by simp [afterDollar]⟩, hc, rfl⟩

theorem agrees_stepCode {l : Lexer} {s : State} {c : Char} {next : Option Char}
    (hm : l.mode = .code) (hb : l.braces = s.stack.count .brace)
    (hs : l.substitutions = bracesBelow s.stack) :
    (l.stepCode c next).1 = (stepCode s.stack c next).1 ∧
      Agrees (l.stepCode c next).2 (stepCode s.stack c next).2 next := by
  unfold Lexer.stepCode stepCode
  simp only [Bool.and_eq_true, Bool.or_eq_true, decide_eq_true_eq]
  split
  · exact ⟨rfl, trivial, hb, hs⟩
  split
  · next h => exact ⟨rfl, ⟨rfl, h.2⟩, hb, hs⟩
  split
  · exact ⟨rfl, ⟨rfl, rfl⟩, hb, hs⟩
  split
  · exact ⟨rfl, ⟨rfl, by simp [afterDollar]⟩, hb, hs⟩
  split
  · exact ⟨rfl, by rw [hm]; trivial, by simp [hb], hs⟩
  split
  · exact agrees_closeBrace hm hb hs _
  · exact ⟨rfl, by rw [hm]; trivial, hb, hs⟩

theorem agrees_stepQuoted {l : Lexer} {s : State} {quote c : Char} {read : List Char}
    {next : Option Char} (hm : l.mode = .quoted quote) (hq : quote = '\'' ∨ quote = '"')
    (hr : isUnescaped read = true) (hb : l.braces = s.stack.count .brace)
    (hs : l.substitutions = bracesBelow s.stack) :
    (l.stepQuoted quote c).1 = (stepString s.stack quote read c).1 ∧
      Agrees (l.stepQuoted quote c).2 (stepString s.stack quote read c).2 next := by
  unfold Lexer.stepQuoted stepString
  simp only [hr, and_true]
  by_cases hc : c = '\\'
  · have h1 : c ≠ quote := by rcases hq with rfl | rfl <;> simp [hc]
    have h2 : c ≠ '\n' := by simp [hc]
    rw [if_pos hc, if_neg h1, if_neg h2]
    refine ⟨rfl, ⟨rfl, ?_⟩, hb, hs⟩
    rw [isUnescaped_cons, if_pos hc, hr]
    rfl
  rw [if_neg hc]
  split
  · exact ⟨rfl, trivial, hb, hs⟩
  split
  · exact ⟨rfl, trivial, hb, hs⟩
  · refine ⟨rfl, ?_, hb, hs⟩
    rw [hm]
    exact ⟨rfl, by rw [isUnescaped_cons, if_neg hc]⟩

theorem agrees_stepTemplate {l : Lexer} {s : State} {c : Char} {read : List Char}
    {next : Option Char} (hm : l.mode = .template) (hr : isUnescaped read = true)
    (hd : afterDollar read = true → some c ≠ some '{') (hb : l.braces = s.stack.count .brace)
    (hs : l.substitutions = bracesBelow s.stack) :
    (l.stepTemplate c next).1 = (stepTemplate s.stack read c).1 ∧
      Agrees (l.stepTemplate c next).2 (stepTemplate s.stack read c).2 next := by
  have hopen : ¬(c = '{' ∧ afterDollar read = true) := fun h => hd h.2 (by rw [h.1])
  unfold Lexer.stepTemplate stepTemplate
  simp only [hr, and_true, Bool.and_eq_true, decide_eq_true_eq]
  rw [if_neg hopen]
  by_cases hc : c = '\\'
  · have h1 : c ≠ '\x60' := by simp [hc]
    rw [if_pos hc, if_neg h1]
    refine ⟨rfl, ?_, hb, hs⟩
    show isUnescaped (c :: read) = false
    rw [isUnescaped_cons, if_pos hc, hr]
    rfl
  rw [if_neg hc]
  split
  · exact ⟨rfl, trivial, hb, hs⟩
  split
  · next h =>
    refine ⟨rfl, ⟨?_, h.2⟩, hb, hs⟩
    simp [afterDollar, h.1, hr]
  · next h =>
    refine ⟨rfl, ?_, hb, hs⟩
    rw [hm]
    refine ⟨by rw [isUnescaped_cons, if_neg hc], fun hd' hn => h ⟨?_, hn⟩⟩
    simp only [afterDollar, Bool.and_eq_true, decide_eq_true_eq] at hd'
    exact hd'.1

theorem afterStar_cons {c : Char} {read : List Char} (h : 2 ≤ read.length) :
    afterStar (c :: read) = decide (c = '*') := by
  obtain ⟨a, b, rest, rfl⟩ : ∃ a b rest, read = a :: b :: rest := by
    match read, h with
    | a :: b :: rest, _ => exact ⟨a, b, rest, rfl⟩
  by_cases hc : c = '*'
  · simp [hc, afterStar]
  · simp only [hc, decide_false]
    unfold afterStar
    split
    · next heq => exact absurd (List.cons.inj heq).1 hc
    · rfl

/-- Behind a backslash a string goes on with any character. -/
theorem agrees_stepEscaped {l : Lexer} {s : State} {quote : Char} {read : List Char}
    (hr : isUnescaped read = false) (hb : l.braces = s.stack.count .brace)
    (hs : l.substitutions = bracesBelow s.stack) (c : Char) (next : Option Char) :
    (stepString s.stack quote read c).1 = .string ∧
      Agrees { l with mode := .quoted quote } (stepString s.stack quote read c).2 next := by
  have e : stepString s.stack quote read c = (.string, ⟨.string quote (c :: read), s.stack⟩) := by
    simp [stepString, hr]
  have hnext : isUnescaped (c :: read) = true := by
    rw [isUnescaped_cons, hr]
    simp
  rw [e]
  exact ⟨rfl, ⟨rfl, hnext⟩, hb, hs⟩

theorem not_afterDollar_of_escaped {read : List Char} (hr : isUnescaped read = false) :
    afterDollar read = false := by
  cases read with
  | nil => rfl
  | cons c read =>
    -- a dollar sign would not leave an odd number of backslashes behind it
    have hc : c = '\\' := by
      by_contra hc
      rw [isUnescaped_cons, if_neg hc] at hr
      cases hr
    simp [afterDollar, hc]

/-- So does a template. -/
theorem agrees_stepTemplateEscaped {l : Lexer} {s : State} {read : List Char}
    (hr : isUnescaped read = false) (hb : l.braces = s.stack.count .brace)
    (hs : l.substitutions = bracesBelow s.stack) (c : Char) (next : Option Char) :
    (stepTemplate s.stack read c).1 = .template ∧
      Agrees { l with mode := .template } (stepTemplate s.stack read c).2 next := by
  have e : stepTemplate s.stack read c = (.template, ⟨.template (c :: read), s.stack⟩) := by
    simp [stepTemplate, hr, not_afterDollar_of_escaped hr]
  have hnext : isUnescaped (c :: read) = true := by
    rw [isUnescaped_cons, hr]
    simp
  have hdollar : afterDollar (c :: read) = false := by simp [afterDollar, hr]
  rw [e]
  refine ⟨rfl, ⟨hnext, fun hd => ?_⟩, hb, hs⟩
  rw [hdollar] at hd
  cases hd

/-- The brace behind a dollar sign goes on the stack with the number of those below it. -/
theorem agrees_stepSubstitution {l : Lexer} {s : State} {read : List Char}
    (hd : afterDollar read = true) (hb : l.braces = s.stack.count .brace)
    (hs : l.substitutions = bracesBelow s.stack) (next : Option Char) :
    (stepTemplate s.stack read '{').1 = .template ∧
      Agrees ⟨.code, l.braces :: l.substitutions, l.braces⟩ (stepTemplate s.stack read '{').2
        next := by
  have e : stepTemplate s.stack read '{' = (.template, ⟨.code, .substitution :: s.stack⟩) := by
    simp [stepTemplate, hd]
  rw [e]
  exact ⟨rfl, trivial, by simpa using hb, by simp [hb, hs, bracesBelow]⟩

/-- Inside a block comment the lexer waits for the mark that the reference looks back for. -/
theorem agrees_stepBlockComment {l : Lexer} {s : State} {c : Char} {read : List Char}
    (hm : l.mode = .blockComment) (hlen : 2 ≤ read.length)
    (hstar : afterStar read = true → some c ≠ some '/') (hb : l.braces = s.stack.count .brace)
    (hs : l.substitutions = bracesBelow s.stack) (next : Option Char) :
    (l.step c next).1 = (stepBlockComment s.stack read c).1 ∧
      Agrees (l.step c next).2 (stepBlockComment s.stack read c).2 next := by
  have e : stepBlockComment s.stack read c =
      (.blockComment, ⟨.blockComment (c :: read), s.stack⟩) :=
    if_neg fun h => hstar h.2 (by rw [h.1])
  rw [Lexer.step_blockComment hm, e]
  simp only [Bool.and_eq_true, decide_eq_true_eq]
  split
  · next h =>
    refine ⟨rfl, ⟨?_, h.2⟩, hb, hs⟩
    rw [afterStar_cons hlen, h.1]
    rfl
  · next h =>
    refine ⟨rfl, ?_, hb, hs⟩
    rw [hm]
    refine ⟨Nat.le_succ_of_le hlen, fun hs' hn => h ⟨?_, hn⟩⟩
    rw [afterStar_cons hlen] at hs'
    exact of_decide_eq_true hs'

/-- Lexer and reference give a character the same region and agree after it. -/
theorem agrees_step {l : Lexer} {s : State} {c : Char} (hready : l.Ready (some c))
    (h : Agrees l s (some c)) (next : Option Char) :
    (l.step c next).1 = (s.step c next).1 ∧ Agrees (l.step c next).2 (s.step c next).2 next := by
  obtain ⟨place, hb, hs⟩ := h
  obtain ⟨inside, stack⟩ := s
  unfold Lexer.Ready at hready
  unfold State.step
  cases hm : l.mode with
  | code =>
    cases inside <;> simp only [hm, SamePlace] at place
    rw [Lexer.step_code hm]
    exact agrees_stepCode (s := ⟨_, stack⟩) hm hb hs
  | quoted quote =>
    cases inside <;> simp only [hm, SamePlace] at place
    rw [hm] at hready
    obtain ⟨rfl, hr⟩ := place
    rw [Lexer.step_quoted hm]
    exact agrees_stepQuoted (s := ⟨_, stack⟩) hm hready hr hb hs
  | quotedEscape quote =>
    cases inside <;> simp only [hm, SamePlace] at place
    obtain ⟨rfl, hr⟩ := place
    obtain ⟨hregion, hagrees⟩ := agrees_stepEscaped (s := ⟨_, stack⟩) hr hb hs c next
    rw [Lexer.step_quotedEscape hm]
    exact ⟨hregion.symm, hagrees⟩
  | template =>
    cases inside <;> simp only [hm, SamePlace] at place
    rw [Lexer.step_template hm]
    exact agrees_stepTemplate (s := ⟨_, stack⟩) hm place.1 place.2 hb hs
  | templateEscape =>
    cases inside <;> simp only [hm, SamePlace] at place
    obtain ⟨hregion, hagrees⟩ := agrees_stepTemplateEscaped (s := ⟨_, stack⟩) place hb hs c next
    rw [Lexer.step_templateEscape hm]
    exact ⟨hregion.symm, hagrees⟩
  | substitutionOpen =>
    cases inside <;> simp only [hm, SamePlace] at place
    obtain ⟨hd, hc⟩ := place
    obtain rfl : c = '{' := by simpa using hc
    obtain ⟨hregion, hagrees⟩ := agrees_stepSubstitution (s := ⟨_, stack⟩) hd hb hs next
    rw [Lexer.step_substitutionOpen hm]
    exact ⟨hregion.symm, hagrees⟩
  | lineComment =>
    cases inside <;> simp only [hm, SamePlace] at place
    rw [Lexer.step_lineComment hm]
    simp only [stepLineComment]
    split
    · exact ⟨rfl, trivial, hb, hs⟩
    · exact ⟨rfl, by rw [hm]; trivial, hb, hs⟩
  | commentOpen =>
    cases inside <;> simp only [hm, SamePlace] at place
    obtain ⟨rfl, -⟩ := place
    have e : stepBlockComment stack ['/'] c = (.blockComment, ⟨.blockComment [c, '/'], stack⟩) :=
      if_neg fun h => absurd h.2 (by decide)
    rw [Lexer.step_commentOpen hm]
    dsimp only
    rw [e]
    exact ⟨rfl, ⟨Nat.le_refl 2, fun h => by simp [afterStar] at h⟩, hb, hs⟩
  | blockComment =>
    cases inside <;> simp only [hm, SamePlace] at place
    exact agrees_stepBlockComment (s := ⟨_, stack⟩) hm place.1 place.2 hb hs next
  | commentClose =>
    cases inside <;> simp only [hm, SamePlace] at place
    obtain ⟨hstar, hc⟩ := place
    obtain rfl : c = '/' := by simpa using hc
    have e : stepBlockComment stack _ '/' = (.blockComment, ⟨.code, stack⟩) :=
      if_pos ⟨rfl, hstar⟩
    rw [Lexer.step_commentClose hm]
    dsimp only
    rw [e]
    exact ⟨rfl, trivial, hb, hs⟩

/-- The agreement is kept over every text. -/
theorem agrees_run {l : Lexer} {s : State} {text : List Char} {next : Option Char}
    (hready : l.Ready (text.head?.or next)) (h : Agrees l s (text.head?.or next)) :
    Agrees (l.run text next) (s.run text next) next := by
  induction text generalizing l s with
  | nil => exact h
  | cons c rest ih => exact ih (Lexer.ready_step hready) (agrees_step hready h _).2

theorem regionsFrom_eq {l : Lexer} {s : State} {text : List Char}
    (hready : l.Ready text.head?) (h : Agrees l s text.head?) :
    (l.glyphsFrom text).map Glyph.region = s.regionsFrom text := by
  induction text generalizing l s with
  | nil => rfl
  | cons c rest ih =>
    obtain ⟨hregion, hrest⟩ := agrees_step hready h rest.head?
    rw [Lexer.glyphsFrom, State.regionsFrom, List.map_cons, hregion,
      ih (Lexer.ready_step hready) hrest]

theorem regions_eq (text : List Char) : Source.regions text = regions text :=
  regionsFrom_eq (Lexer.ready_initial _) (agrees_initial _)

theorem samePlace_code_iff {next : Option Char} {mode : Mode} {inside : Inside}
    (h : SamePlace next mode inside) : mode = .code ↔ inside = .code := by
  cases mode <;> cases inside <;> simp_all [SamePlace]

theorem closeBrace_eq_template_iff (stack : List Symbol) :
    (closeBrace stack).1 = .template ↔ stack.head? = some .substitution := by
  match stack with
  | [] => simp [closeBrace]
  | .brace :: outer => simp [closeBrace]
  | .substitution :: outer => simp [closeBrace]

/-- The counters of the lexer stand for the stack: a closing brace ends a template expression for
the one exactly if it does for the other. -/
structure Tracks (l : Lexer) (s : State) : Prop where
  code : l.mode = .code ↔ s.inside = .code
  braces : l.braces = s.stack.count .brace
  substitutions : l.substitutions = bracesBelow s.stack
  closes : l.closeBrace.1 = .template ↔ s.stack.head? = some .substitution

theorem closeBrace_region {l : Lexer} {s : State} (hb : l.braces = s.stack.count .brace)
    (hs : l.substitutions = bracesBelow s.stack) : l.closeBrace.1 = (closeBrace s.stack).1 := by
  have h := (agrees_closeBrace (l := { l with mode := .code }) rfl hb hs none).1
  rw [← h]
  unfold Lexer.closeBrace
  dsimp only
  split
  · split <;> rfl
  · rfl

theorem Agrees.tracks {l : Lexer} {s : State} {next : Option Char} (h : Agrees l s next) :
    Tracks l s where
  code := samePlace_code_iff h.place
  braces := h.braces
  substitutions := h.substitutions
  closes := by rw [closeBrace_region h.braces h.substitutions, closeBrace_eq_template_iff]

end Pushdown

/-- The lexer gives every byte of a source the region that the pushdown lexer gives it, and its
counters stand for the stack after every number of bytes. -/
theorem byteRegions_eq_pushdown (source : List Char) :
    (byteGlyphs source).map Glyph.region = Pushdown.regions (bytesOf source) ∧
      ∀ n, Pushdown.Tracks
        (Lexer.initial.run ((bytesOf source).take n) ((bytesOf source).drop n).head?)
        (Pushdown.initial.run ((bytesOf source).take n) ((bytesOf source).drop n).head?) := by
  refine ⟨Pushdown.regions_eq _, fun n => ?_⟩
  exact (Pushdown.agrees_run (Lexer.ready_initial _) (Pushdown.agrees_initial _)).tracks

/-- A stray closing brace is ignored, and a block's brace inside a template expression does not
end it. -/
example : Pushdown.regions "\x7d\x60$\x7b\x7b\x7d\x7d\x60".toList =
    [.code, .template, .template, .template, .code, .code, .template, .template] := by decide

end SnippetRunner.Source
