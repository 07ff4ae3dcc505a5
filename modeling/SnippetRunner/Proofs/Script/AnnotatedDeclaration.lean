import SnippetRunner.Proofs.Script.Annotated
import SnippetRunner.Proofs.Script.Detection
import SnippetRunner.Proofs.Script.ModuleDetection
import SnippetRunner.Proofs.Script.Translation
import SnippetRunner.Proofs.Source.Uncommented

/-
  Declarations with comments in their lists of names. The passes before the one for its form leave
  such a declaration alone (`Listing.still`), for no declaration begins in the code of it, and those
  behind that one see its code only. So it comes to the same as the declaration with blanks in place
  of its comments whenever it is read as that, and `Listing.comments_as_blanks` tells when it is: if
  no comment holds a brace, and every one is harmless to the names.
-/
namespace SnippetRunner.Script

open SnippetRunner.Text SnippetRunner.Source

/-! ## Texts in whose code no declaration begins -/

/-- No declaration of the form begins in the code of the text. -/
def Still (form : Form) (s : List Char) : Prop :=
  ∀ (l : Lexer) (before : List Char), l.IsPlain →
    anyInCode (declares form) before s ((l.glyphsFrom s).map Glyph.region) = false

section Still

variable {form : Form} {a b s : List Char} {c : Char}

theorem declares_eq_false_of_head (hc : c ≠ 'i' ∧ c ≠ 'e') (before s : List Char) :
    declares form before (c :: s) = false := by
  rw [declares, read?_eq_none_of_head hc]
  exact Bool.and_false _

theorem anyInCode_of_heads (hs : ∀ c ∈ s, c ≠ 'i' ∧ c ≠ 'e') (before : List Char)
    (regions : List Region) : anyInCode (declares form) before s regions = false := by
  induction s generalizing before regions with
  | nil => rfl
  | cons c s ih =>
    cases regions with
    | nil => rfl
    | cons region regions =>
      rw [anyInCode, declares_eq_false_of_head (hs c (List.mem_cons_self ..)), Bool.and_false,
        Bool.false_or]
      exact ih (fun d hd => hs d (List.mem_cons_of_mem _ hd)) _ _

theorem quiet_of_heads (ha : ∀ c ∈ a, c ≠ 'i' ∧ c ≠ 'e') {afterWord : Bool} :
    Quiet form b afterWord a := by
  induction a generalizing afterWord with
  | nil => trivial
  | cons c a ih =>
    exact ⟨fun _ => read?_eq_none_of_head (ha c (List.mem_cons_self ..)) _,
      ih fun d hd => ha d (List.mem_cons_of_mem _ hd)⟩

theorem anyInCode_of_quiet {afterWord : Bool} (hquiet : Quiet form b afterWord a)
    (hplain : a.all Lexer.isPlainChar = true) (hb : Still form b) {l : Lexer} (hl : l.IsPlain)
    {before : List Char} (hword : before.head?.any isWord = afterWord) :
    anyInCode (declares form) before (a ++ b) ((l.glyphsFrom (a ++ b)).map Glyph.region) =
      false := by
  induction a generalizing afterWord l before with
  | nil => exact hb l before hl
  | cons c a ih =>
    rw [List.all_cons, Bool.and_eq_true] at hplain
    have hhere : declares form before (c :: (a ++ b)) = false := by
      cases afterWord with
      | true => rw [declares, wordBegins, wordEnds, hword, Bool.not_true, Bool.false_and]
      | false =>
        have hread : form.read? (c :: (a ++ b)) = none := hquiet.1 rfl
        rw [declares, hread, Option.isSome_none, Bool.and_false]
    rw [List.cons_append, Lexer.glyphsFrom, List.map_cons, anyInCode, hhere, Bool.and_false,
      Bool.false_or]
    exact ih hquiet.2 hplain.2 (hl.step hplain.1).2 rfl

namespace Still

theorem quiet (hquiet : Quiet form b false a) (hplain : a.all Lexer.isPlainChar = true)
    (hb : Still form b) : Still form (a ++ b) :=
  fun _ _ hl => anyInCode_of_quiet (hquiet.of_false _) hplain hb hl rfl

theorem cons (hplain : Lexer.isPlainChar c = true) (hc : c ≠ 'i' ∧ c ≠ 'e') (hs : Still form s) :
    Still form (c :: s) :=
  quiet (quiet_of_heads (List.forall_mem_singleton.mpr hc)) (by rw [List.all_cons, hplain]; rfl) hs

theorem blanks (gap : Written.Blanks) (hs : Still form s) : Still form (gap.text ++ s) := by
  refine quiet (quiet_of_heads fun c hc => ?_) (List.all_eq_true.mpr fun c hc => ?_) hs
  · exact ⟨ne_of_test (gap.blank c hc) (by decide), ne_of_test (gap.blank c hc) (by decide)⟩
  · exact Calm.isPlainChar_of_test (by decide) (gap.blank c hc)

theorem identifier (ha : ∀ c ∈ a, isIdentifierPart c = true) (hcloses : Closes b)
    (hb : Still form b) : Still form (a ++ b) := by
  have hquiet : Quiet form (b ++ []) false a := quiet_of_closes ha hcloses
  rw [List.append_nil] at hquiet
  refine quiet hquiet (List.all_eq_true.mpr fun c hc => ?_) hb
  exact Calm.isPlainChar_of_test (by decide) (ha c hc)

/-- A word that is not the first one of a declaration. -/
theorem word (ha : a.all isWord = true) (hread : form.read? (a ++ b) = none)
    (hb : Still form b) : Still form (a ++ b) := by
  refine quiet (quiet_word ha hread) (List.all_eq_true.mpr fun c hc => ?_) hb
  exact Calm.isPlainChar_of_test (by decide) (List.all_eq_true.mp ha c hc)

end Still

end Still

/-! ## Comments and strings in code -/

/-- Where nothing is code, no declaration begins. -/
theorem anyInCode_glyphsFrom {form : Form} {l : Lexer} {s t : List Char}
    (hhidden : ∀ g ∈ l.glyphsTo s t.head?, g.isCode = false) (before : List Char) :
    anyInCode (declares form) before (s ++ t) ((l.glyphsFrom (s ++ t)).map Glyph.region) =
      anyInCode (declares form) (s.reverse ++ before) t
        (((l.run s t.head?).glyphsFrom t).map Glyph.region) := by
  have hskip := anyInCode_append (p := declares form) hhidden before t
    (((l.run s t.head?).glyphsFrom t).map Glyph.region)
  rw [Lexer.map_char_glyphsTo] at hskip
  rw [Lexer.glyphsFrom_append, List.map_append, hskip]

namespace Annotated

section

variable {form : Form} {s : List Char}

theorem Comment.still (c : Comment) (hs : Still form s) : Still form (c.text ++ s) := by
  intro l before hl
  cases c with
  | line inner ends =>
    obtain ⟨hhidden, hrun⟩ := hl.glyphsTo_line ends (some '\n')
    have htext : (Comment.line inner ends).text ++ s = '/' :: '/' :: inner ++ '\n' :: s := by
      simp [text]
    rw [htext, anyInCode_glyphsFrom hhidden, List.head?_cons, hrun]
    have hfeed : declares form (('/' :: '/' :: inner).reverse ++ before) ('\n' :: s) = false :=
      declares_eq_false_of_head (by decide) _ _
    rw [Lexer.glyphsFrom, List.map_cons, anyInCode, hfeed, Bool.and_false, Bool.false_or,
      Lexer.step_lineComment rfl, if_pos rfl]
    exact hs _ _ ⟨rfl, hl.substitutions⟩
  | block inner ends =>
    obtain ⟨hhidden, hrun⟩ := hl.glyphsTo_block ends s.head?
    have htext : (Comment.block inner ends).text = '/' :: '*' :: (inner ++ ['*', '/']) := by
      simp [text]
    rw [htext, anyInCode_glyphsFrom hhidden, hrun]
    exact hs _ _ hl

theorem Filler.still (f : Filler) (hs : Still form s) : Still form (f.text ++ s) := by
  induction f with
  | blanks b => exact .blanks b hs
  | comment before c rest ih =>
    rw [text, List.append_assoc, List.append_assoc]
    exact .blanks before (c.still ih)

end

/-! ## Names with comments behind them -/

/-- Behind a name stands a comma, a brace or a comment. -/
theorem Filler.trimStart_append (f : Filler) {c : Char} (hc : c ∈ [',', '}']) (s : List Char) :
    ∃ d t, trimStart (f.text ++ c :: s) = d :: t ∧ d ∈ [',', '}', '/'] := by
  rcases f.cases with ⟨-, -, hblank⟩ | ⟨-, gap, rest, htext, hblank, -⟩
  · refine ⟨c, s, ?_, List.mem_append_left ['/'] hc⟩
    rw [trimStart, List.dropWhile_append_of_pos hblank]
    simp only [List.mem_cons, List.not_mem_nil, or_false] at hc
    rcases hc with rfl | rfl <;> rfl
  · refine ⟨'/', rest ++ c :: s, ?_, by decide⟩
    rw [htext, List.append_assoc, trimStart, List.dropWhile_append_of_pos hblank]
    rfl

theorem stops_of_trimStart {s t : List Char} {c : Char} (hs : trimStart s = c :: t)
    (hc : isIdentifierPart c = false) : s.head?.all isIdentifierPart = false := by
  cases s with
  | nil => cases hs
  | cons d s =>
    cases hd : isBlank d with
    | true => exact not_isIdentifierPart_of_isBlank hd
    | false =>
      rw [trimStart, List.dropWhile_cons_of_neg (by simp [hd])] at hs
      rw [(List.cons.inj hs).1]
      exact hc

section

variable {form : Form} {s t : List Char} {c : Char}

theorem Item.still (item : Item) (htrim : trimStart s = c :: t) (hc : c ∈ [',', '}', '/'])
    (hs : Still form s) : Still form (item.text ++ s) := by
  have hmark : isIdentifierPart c = false ∧ isQuote c = false ∧
      c ∈ [',', '}', '=', ':', ')', ';', '/'] := by
    simp only [List.mem_cons, List.not_mem_nil, or_false] at hc
    rcases hc with rfl | rfl | rfl <;> decide
  obtain ⟨hpart, hquote, hcloses⟩ := hmark
  have hstop := stops_of_trimStart htrim hpart
  have hlast (name : Word) : Still form (name.text ++ s) :=
    .identifier name.parts (closes_mark htrim hcloses hstop) hs
  cases item with
  | plain name => exact hlast name
  | renamed source beforeAs afterAs localName =>
    simp only [text, List.append_assoc]
    refine .identifier source.parts
      (closes_as_of_stops beforeAs afterAs localName.nonempty localName.parts hstop htrim hquote)
      (.blanks beforeAs.toBlanks (.word (by decide) ?_
        (.blanks afterAs.toBlanks (hlast localName))))
    exact read?_eq_none_of_head (by decide) _

theorem Slot.still (slot : Slot) (hc : c ∈ [',', '}']) (hs : Still form (c :: s)) :
    Still form (slot.text ++ c :: s) := by
  cases slot with
  | vacant filler => exact filler.still hs
  | entry before item after =>
    obtain ⟨d, t, htrim, hd⟩ := after.trimStart_append hc s
    rw [text, List.append_assoc, List.append_assoc]
    exact before.still (item.still htrim hd (after.still hs))

theorem Names.still (named : Names) (hs : Still form ('}' :: s)) :
    Still form (named.text ++ '}' :: s) := by
  induction named with
  | last slot => exact slot.still (by decide) hs
  | more slot rest ih =>
    rw [text, List.append_assoc]
    exact slot.still (by decide) (.cons (by decide) (by decide) ih)

end

/-! ## Declarations -/

/-- What stands between the first word of a declaration and the brace. -/
inductive Head where
  | importNamed (before : Written.Blanks)
  | importDefaultAndNamed (beforeName : Written.Gap) (name : Written.Name)
    (beforeComma afterComma : Written.Blanks)
  | exportNamedFrom (before : Written.Blanks)

namespace Head

def form : Head → Form
  | importNamed .. => .importNamed
  | importDefaultAndNamed .. => .importDefaultAndNamed
  | exportNamedFrom .. => .exportNamedFrom

def text : Head → List Char
  | importNamed before => before.text
  | importDefaultAndNamed beforeName name beforeComma afterComma =>
    beforeName.text ++ name.text ++ beforeComma.text ++ ',' :: afterComma.text
  | exportNamedFrom before => before.text

/-- The declaration of these names, from this module. -/
def declaration (named : List Specifier) (module : List Char) : Head → Declaration
  | importNamed _ => .importNamed named module
  | importDefaultAndNamed _ name _ _ => .importDefaultAndNamed name.text named module
  | exportNamedFrom _ => .exportNamedFrom named module

end Head

/-- The name of a module in quotes. The semicolon may be left out. -/
structure Origin where
  before : Written.Blanks
  quote : Char
  quotes : isQuote quote = true
  module : List Char
  nonempty : module ≠ []
  unquoted : ∀ c ∈ module, isQuote c = false ∧ c ≠ '\n'
  after : Written.Blanks
  semicolon : Bool

namespace Origin

/-- What stands behind the name of the module. -/
def ending (o : Origin) : List Char := o.after.text ++ if o.semicolon then [';'] else []

def text (o : Origin) : List Char := o.before.text ++ o.quote :: (o.module ++ o.quote :: o.ending)

end Origin

/-- An import or a re-export of names, with comments in its list of names. -/
structure Listing where
  head : Head
  named : Names
  beforeFrom : Written.Blanks
  origin : Origin

namespace Listing

/-- What stands behind the list. -/
def tail (d : Listing) : List Char := d.beforeFrom.text ++ ("from".toList ++ d.origin.text)

def text (d : Listing) : List Char :=
  d.head.form.opening ++ (d.head.text ++ '{' :: (d.named.text ++ '}' :: d.tail))

/-- What it declares: the names of its list, comments aside. -/
def declaration (d : Listing) : Declaration := d.head.declaration d.named.pairs d.origin.module

/-- The declaration with blanks in place of its comments. -/
def blanked (d : Listing) : Listing := { d with named := d.named.blanked }

/-- No comment ends the list, or comes into the names that are read from it. -/
def Harmless (d : Listing) : Prop := '}' ∉ d.named.text ∧ d.named.Harmless

end Listing

/-! ## Reading a declaration -/

theorem Head.declaration_injective (head : Head) {named named' : List Specifier}
    {module module' : List Char}
    (h : head.declaration named module = head.declaration named' module') : named = named' := by
  cases head <;> cases h <;> rfl

theorem Head.read?_text (head : Head) (s : List Char) :
    head.form.read? (head.form.opening ++ (head.text ++ '{' :: s)) =
      (bracedList? ('{' :: s)).bind fun list => (fromModule? (trimStart list.2)).bind fun origin =>
        some (head.declaration list.1 origin.1, origin.2) := by
  have hbrace : trimStart ('{' :: s) = '{' :: s := rfl
  cases head <;> unfold form text Form.opening Form.read? declaration <;> dsimp only <;>
    simp only [dropStart?_append, Option.bind_eq_bind, Option.bind_some]
  case importNamed before | exportNamedFrom before =>
    rw [before.trimStart_append, hbrace]
    rfl
  case importDefaultAndNamed beforeName name beforeComma afterComma =>
    simp only [List.append_assoc, List.cons_append,
      Written.defaultName?_append beforeName name beforeComma afterComma hbrace]
    rfl

theorem Origin.declarationEnd_ending (o : Origin) : declarationEnd o.ending = [] := by
  unfold declarationEnd ending
  rw [o.after.trimStart_append]
  cases o.semicolon <;> rfl

theorem Origin.fromModule?_text (o : Origin) :
    fromModule? ("from".toList ++ o.text) = some (o.module, []) := by
  have htrim : trimStart o.text = o.quote :: (o.module ++ o.quote :: o.ending) := by
    rw [text, o.before.trimStart_append]
    have hquote := Written.not_of_isQuote isBlank (by decide) (by decide) o.quotes
    exact List.dropWhile_cons_of_neg (by simp [hquote])
  rw [fromModule?, dropStart?_append, Option.bind_eq_bind, Option.bind_some, htrim,
    Written.moduleName?_quoted o.quotes o.nonempty o.unquoted, Option.bind_eq_bind,
    Option.bind_some]
  exact congrArg (fun rest => some (o.module, rest)) o.declarationEnd_ending

namespace Listing

theorem fromModule?_tail (d : Listing) :
    fromModule? (trimStart d.tail) = some (d.origin.module, []) := by
  rw [tail, d.beforeFrom.trimStart_append, ← d.origin.fromModule?_text]
  rfl

/-- A list without a brace in it is read to its end. -/
theorem read?_text_of_braceless (d : Listing) (h : '}' ∉ d.named.text) :
    d.head.form.read? d.text =
      some (d.head.declaration (Specifier.ofList d.named.text) d.origin.module, []) := by
  rw [text, d.head.read?_text, Written.bracedList?_append h, Option.bind_some]
  dsimp only
  rw [d.fromModule?_tail, Option.bind_some]

end Listing

theorem moduleName?_eq_append {s name rest : List Char}
    (h : moduleName? s = some (name, rest)) :
    ∃ opening closing, s = opening :: (name ++ closing :: rest) ∧ isQuote opening = true ∧
      isQuote closing = true ∧ ∀ c ∈ name, isQuote c = false := by
  unfold moduleName? at h
  split at h
  · cases h
  · next c s =>
    dsimp only at h
    split at h
    · next close tail hdrop =>
      split at h
      · next hquotes =>
        obtain ⟨rfl, rfl⟩ := Prod.mk.inj (Option.some.inj h)
        simp only [Bool.and_eq_true] at hquotes
        refine ⟨c, close, ?_, hquotes.1.1, hquotes.1.2, fun d hd => ?_⟩
        · have hsplit :=
            List.take_append_drop (s.takeWhile fun d => !isQuote d && d ≠ '\n').length s
          rw [hdrop, ← List.prefix_iff_eq_take.mp (List.takeWhile_prefix _)] at hsplit
          rw [hsplit]
        · have hd := List.mem_takeWhile_imp hd
          simp only [Bool.and_eq_true, Bool.not_eq_true'] at hd
          exact hd.1
      · cases h
    · cases h

theorem of_declarationEnd_eq_nil {s : List Char} (h : declarationEnd s = []) :
    s.countP isQuote = 0 := by
  have hblank : ∀ c ∈ s.takeWhile isBlank, isQuote c = false := fun c hc => by
    rw [← Bool.not_eq_true]
    intro hquote
    have hnot := Written.not_of_isQuote isBlank (by decide) (by decide) hquote
    rw [List.mem_takeWhile_imp hc] at hnot
    cases hnot
  have hrest : (trimStart s).countP isQuote = 0 := by
    unfold declarationEnd at h
    split at h
    · next hnil => rw [hnil]; rfl
    · next c rest hcons =>
      split at h
      · next hc => rw [hcons, h, hc]; rfl
      · cases h
  rw [← List.takeWhile_append_dropWhile (p := isBlank) (l := s), List.countP_append,
    List.countP_eq_zero.mpr (by simpa using hblank)]
  simpa [trimStart] using hrest

/-- What is read of a text to its end has two quotes, and no brace in front of them. -/
theorem of_fromModule?_eq_nil {s module : List Char}
    (h : fromModule? (trimStart s) = some (module, [])) :
    '}' ∉ s.takeWhile (!isQuote ·) ∧ s.countP isQuote = 2 := by
  simp only [fromModule?, Option.bind_eq_bind, Option.bind_eq_some_iff, Prod.exists] at h
  obtain ⟨u, hu, name, t, hname, hend⟩ := h
  have hend : declarationEnd t = [] := (Prod.mk.inj (Option.some.inj hend)).2
  obtain ⟨opening, closing, hquoted, hopening, hclosing, hunquoted⟩ := moduleName?_eq_append hname
  have hs : s = s.takeWhile isBlank ++ "from".toList ++ u.takeWhile isBlank ++
      opening :: (name ++ closing :: t) := by
    have houter : s.takeWhile isBlank ++ trimStart s = s := List.takeWhile_append_dropWhile
    have hinner : u.takeWhile isBlank ++ trimStart u = u := List.takeWhile_append_dropWhile
    rw [List.append_assoc, List.append_assoc, ← hquoted, hinner, ← dropStart?_eq_some_iff.mp hu,
      houter]
  have hfront : ∀ c ∈ s.takeWhile isBlank ++ "from".toList ++ u.takeWhile isBlank,
      isQuote c = false ∧ c ≠ '}' := by
    have hblank {v : List Char} : ∀ c ∈ v.takeWhile isBlank, isQuote c = false ∧ c ≠ '}' := by
      intro c hc
      have hc := List.mem_takeWhile_imp hc
      refine ⟨?_, ne_of_test hc (by decide)⟩
      simp [isQuote, ne_of_test hc (show isBlank '\'' = false by decide),
        ne_of_test hc (show isBlank '"' = false by decide)]
    have hword : ∀ c ∈ "from".toList, isQuote c = false ∧ c ≠ '}' := by simp [isQuote]
    exact List.forall_mem_append.mpr ⟨List.forall_mem_append.mpr ⟨hblank, hword⟩, hblank⟩
  generalize s.takeWhile isBlank ++ "from".toList ++ u.takeWhile isBlank = front at hs hfront
  subst hs
  constructor
  · rw [List.takeWhile_append_of_pos fun c hc => by simp [(hfront c hc).1],
      List.takeWhile_cons_of_neg (by simp [hopening]), List.append_nil]
    exact fun hmem => (hfront _ hmem).2 rfl
  · have hbefore : front.countP isQuote = 0 :=
      List.countP_eq_zero.mpr fun c hc => by simp [(hfront c hc).1]
    have hname : name.countP isQuote = 0 := List.countP_eq_zero.mpr (by simpa using hunquoted)
    rw [List.countP_append, List.countP_cons_of_pos hopening, List.countP_append,
      List.countP_cons_of_pos hclosing, of_declarationEnd_eq_nil hend, hbefore, hname]

namespace Listing

/-- A declaration is read as what it declares exactly if its comments are harmless. -/
theorem read?_text_iff (d : Listing) :
    d.head.form.read? d.text = some (d.declaration, []) ↔ d.Harmless := by
  constructor
  · intro h
    have hbrace : '}' ∉ d.named.text := by
      intro hmem
      obtain ⟨a, b, hsplit, ha⟩ := List.eq_append_cons_of_mem hmem
      have hlist : d.named.text ++ '}' :: d.tail = a ++ '}' :: (b ++ '}' :: d.tail) := by
        rw [hsplit, List.append_assoc, List.cons_append]
      rw [text, hlist, d.head.read?_text, Written.bracedList?_append ha, Option.bind_some,
        Option.bind_eq_some_iff] at h
      obtain ⟨⟨module, rest⟩, hmodule, hread⟩ := h
      obtain rfl : rest = [] := (Prod.mk.inj (Option.some.inj hread)).2
      obtain ⟨hfront, hquotes⟩ := of_fromModule?_eq_nil hmodule
      have htail := (of_fromModule?_eq_nil d.fromModule?_tail).2
      -- the quotes are those of the origin, so the second brace stands in front of them
      have hunquoted : ∀ c ∈ b, (!isQuote c) = true := by
        rw [List.countP_append, List.countP_cons_of_neg (by decide), htail] at hquotes
        have hzero : b.countP isQuote = 0 := by omega
        simpa using List.countP_eq_zero.mp hzero
      rw [List.takeWhile_append_of_pos hunquoted, List.takeWhile_cons_of_pos (by decide)] at hfront
      exact hfront (by simp)
    rw [d.read?_text_of_braceless hbrace] at h
    have hnames := d.head.declaration_injective (Prod.mk.inj (Option.some.inj h)).1
    exact ⟨hbrace, d.named.ofList_text_iff.mp hnames⟩
  · rintro ⟨hbrace, hharmless⟩
    rw [d.read?_text_of_braceless hbrace, d.named.ofList_text_iff.mpr hharmless, declaration]

theorem harmless_blanked (d : Listing) : d.blanked.Harmless :=
  ⟨d.named.braceless_blanked, d.named.harmless_blanked⟩

theorem declaration_blanked (d : Listing) : d.blanked.declaration = d.declaration := by
  rw [declaration, declaration]
  exact congrArg (d.head.declaration · d.origin.module) d.named.pairs_blanked

theorem newlines_blanked (d : Listing) : newlines d.blanked.text = newlines d.text := by
  have hlist (named : Names) : newlines { d with named := named }.text =
      newlines d.head.form.opening +
        (newlines d.head.text + (newlines named.text + newlines d.tail)) := by
    rw [text, newlines_append, newlines_append_cons (by decide), newlines_append_cons (by decide)]
    rfl
  rw [blanked, hlist, d.named.newlines_blanked]
  exact (hlist d.named).symm

end Listing

/-! ## Earlier passes -/

section

variable {form : Form}

/-- A module in quotes, with no letter behind it. -/
theorem still_quoted {quote : Char} (hquote : isQuote quote = true) {m s : List Char}
    (hm : ∀ c ∈ m, isQuote c = false ∧ c ≠ '\n') (hs : ∀ c ∈ s, c ≠ 'i' ∧ c ≠ 'e') :
    Still form (quote :: (m ++ s)) := by
  intro l before hl
  have hhead : quote ≠ 'i' ∧ quote ≠ 'e' :=
    ⟨ne_of_test hquote (by decide), ne_of_test hquote (by decide)⟩
  have hmode (next : Option Char) : (l.step quote next).2.mode = .quoted quote := by
    rw [Lexer.step_code hl.mode]
    simp only [isQuote, Bool.or_eq_true, decide_eq_true_eq] at hquote
    rcases hquote with rfl | rfl <;> simp [Lexer.stepCode]
  have hstring : ∀ c ∈ m, c ≠ quote ∧ c ≠ '\n' := fun c hc =>
    ⟨(ne_of_test hquote (hm c hc).1).symm, (hm c hc).2⟩
  rw [Lexer.glyphsFrom, List.map_cons, anyInCode, declares_eq_false_of_head hhead, Bool.and_false,
    Bool.false_or, anyInCode_glyphsFrom (Lexer.glyphsTo_quoted (.inl (hmode _)) hstring _)]
  exact anyInCode_of_heads hs _ _

theorem Origin.still (o : Origin) : Still form o.text := by
  refine .blanks o.before (still_quoted o.quotes o.unquoted fun c hc => ?_)
  rcases List.mem_cons.mp hc with rfl | hc
  · exact ⟨ne_of_test o.quotes (by decide), ne_of_test o.quotes (by decide)⟩
  rcases List.mem_append.mp hc with hc | hc
  · have hblank := o.after.blank c hc
    exact ⟨ne_of_test hblank (by decide), ne_of_test hblank (by decide)⟩
  · split at hc
    · rw [List.mem_singleton.mp hc]
      decide
    · cases hc

/-- Behind the first word, only its own form and the last one read a declaration. -/
theorem Head.read?_eq_none (head : Head) (hform : form ≠ head.form) (hlast : form ≠ .exportNames)
    (s : List Char) : form.read? (head.form.opening ++ (head.text ++ '{' :: s)) = none := by
  have hnames : head.form ≠ .exportNames := fun h => by cases head <;> cases h
  by_cases hopening : form.opening = head.form.opening
  · have hmark (before : Written.Blanks) (hwordy : head.form.isWordy = false)
        (hleads : head.form.leads '{' = true) :
        form.read? (form.opening ++ (before.text ++ '{' :: s)) = none :=
      read?_eq_none_of_leads (before.trimStart_append _)
        (Form.leads_eq_false hwordy hleads hopening hform hlast hnames)
    cases head with
    | importNamed before | exportNamedFrom before =>
      rw [← hopening]
      exact hmark before rfl rfl
    | importDefaultAndNamed beforeName name beforeComma afterComma =>
      simp only [text, List.append_assoc, List.cons_append]
      exact Written.read?_named_eq_none beforeName name beforeComma afterComma hopening rfl
        (fun _ => rfl) fun h => absurd h hform
  · exact read?_opening_eq_none hopening _

theorem Head.still (head : Head) (hform : form ≠ head.form) (hlast : form ≠ .exportNames)
    {s : List Char} (hs : Still form ('{' :: s)) :
    Still form (head.form.opening ++ (head.text ++ '{' :: s)) := by
  refine .word head.form.letters_opening (head.read?_eq_none hform hlast s) ?_
  cases head with
  | importNamed before | exportNamedFrom before => exact .blanks before hs
  | importDefaultAndNamed beforeName name beforeComma afterComma =>
    simp only [text, List.append_assoc, List.cons_append]
    exact .blanks beforeName.toBlanks (.identifier name.parts
      (closes_listed beforeComma (by decide) _) (.blanks beforeComma
        (.cons (by decide) (by decide) (.blanks afterComma hs))))

theorem Listing.still (d : Listing) (hform : form ≠ d.head.form) (hlast : form ≠ .exportNames) :
    Still form d.text := by
  have hfrom : Still form ("from".toList ++ d.origin.text) :=
    .word (by decide) (read?_eq_none_of_head (by decide) _) d.origin.still
  have htail : Still form d.tail := .blanks d.beforeFrom hfrom
  exact d.head.still hform hlast
    (.cons (by decide) (by decide) (d.named.still (.cons (by decide) (by decide) htail)))

end

namespace Listing

/-- The passes in front of the one over its own form, and those behind it. -/
def earlier (d : Listing) : List Form := Form.all.takeWhile (· ≠ d.head.form)

def later (d : Listing) : List Form := (Form.all.dropWhile (· ≠ d.head.form)).tail

theorem all_eq (d : Listing) : Form.all = d.earlier ++ d.head.form :: d.later := by
  obtain ⟨head, _, _, _⟩ := d
  cases head <;> rfl

theorem of_mem_earlier (d : Listing) {form : Form} (h : form ∈ d.earlier) :
    form ≠ d.head.form ∧ form ≠ .exportNames := by
  refine ⟨by simpa using List.mem_takeWhile_imp h, ?_⟩
  have hpairs : Form.all.Pairwise fun f _ => f ≠ .exportNames := by decide
  rw [d.all_eq, List.pairwise_append] at hpairs
  exact hpairs.2.2 form h d.head.form (List.mem_cons_self ..)

/-- What is read becomes code, and that goes through the passes behind. -/
theorem normalize_text (d : Listing) {read : Declaration}
    (h : d.head.form.read? d.text = some (read, [])) :
    normalize d.text =
      d.later.foldl replaceForm (read.render ++ List.replicate (newlines d.text) '\n') := by
  have hearlier : d.earlier.foldl replaceForm d.text = d.text := by
    refine foldl_replaceForm_eq_self fun form hform => ?_
    obtain ⟨hne, hlast⟩ := d.of_mem_earlier hform
    exact d.still hne hlast .initial [] Lexer.isPlain_initial
  have hown : replaceForm d.text d.head.form =
      read.render ++ List.replicate (newlines d.text) '\n' := by
    have hne : d.text ≠ [] := fun hnil => by
      rw [hnil] at h
      generalize d.head.form = form at h
      cases form <;> cases h
    rw [← List.append_nil d.text] at h
    obtain ⟨word, hpass⟩ := passFrom_of_read Lexer.isPlain_initial h hne
    rwa [passFrom_nil, List.append_nil, List.append_nil] at hpass
  rw [normalize, d.all_eq, List.foldl_append, hearlier, List.foldl_cons, hown]

/-- With harmless comments a declaration comes to the same as with blanks in place of them. -/
theorem normalize_of_harmless (d : Listing) (h : d.Harmless) :
    normalize d.text = normalize d.blanked.text := by
  have hread := d.read?_text_iff.mpr h
  have hblanked := d.blanked.read?_text_iff.mpr d.harmless_blanked
  rw [d.normalize_text hread, d.blanked.normalize_text hblanked, d.declaration_blanked,
    d.newlines_blanked]
  rfl

end Listing

/-- A declaration is read as the one with blanks in place of its comments exactly if these hold no
brace and are harmless to the names, and then both come to the same code. -/
theorem comments_as_blanks_iff (d : Listing) :
    (d.head.form.read? d.text = some (d.declaration, []) ↔ d.Harmless) ∧
    d.head.form.read? d.blanked.text = some (d.declaration, []) ∧
    (d.Harmless → normalize d.text = normalize d.blanked.text) := by
  have hblanked := d.blanked.read?_text_iff.mpr d.harmless_blanked
  rw [d.declaration_blanked] at hblanked
  exact ⟨d.read?_text_iff, hblanked, d.normalize_of_harmless⟩

/-- Comments behind the names, with a blank between, do no harm. -/
example :
    normalize "import \x7b a /* 1st */, b as c // 2nd\n\x7d from 'm';".toList =
      "const \x7b a, b: c \x7d = require('m');\n".toList := by
  decide +kernel

/-- A comment in front of a name is taken for a name, and what opens it comments out the code. One
with a comma in it exports a word of its own. -/
theorem comment_read_as_name :
    normalize "import \x7b a, /* second */ b \x7d from 'm';".toList
        = "const \x7b a, /* \x7d = require('m');".toList ∧
      uncommented (glyphs "const \x7b a, /* \x7d = require('m');".toList)
        = "const \x7b a, ".toList ∧
      normalize "import \x7b a,              b \x7d from 'm';".toList
        = "const \x7b a, b \x7d = require('m');".toList ∧
      normalize "export \x7b a /* x, y */ \x7d from 'm';".toList
        = "module.exports.a = require('m').a; module.exports.y = require('m').y;".toList := by
  decide +kernel

end Annotated

end SnippetRunner.Script
