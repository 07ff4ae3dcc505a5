import SnippetRunner.Proofs.Script.FirstWord
import SnippetRunner.Proofs.Text.Cut
import SnippetRunner.Source.Occurrence

/-
  Module declarations as they are written: the tokens of each form, with whatever blanks stand
  between them, and the code that each one is to be translated to. Reading a written declaration
  gives it back, whatever follows its semicolon (`Written.read?_text`), and the code for it is its
  translation (`Written.render_declaration`).
-/
namespace SnippetRunner.Script

open SnippetRunner.Text SnippetRunner.Source

/-- `word` stands in `s` as a word of its own. -/
def HoldsWord (word s : List Char) : Prop :=
  ∃ before rest, s = before ++ word ++ rest ∧ wordBegins before.reverse = true ∧
    wordEnds rest = true

theorem holdsWord_iff {word s : List Char} :
    HoldsWord word s ↔ ∃ i ∈ List.range (s.length + 1), wordBegins (s.take i).reverse = true ∧
      (dropStart? word (s.drop i)).any wordEnds = true := by
  constructor
  · rintro ⟨before, rest, rfl, hbegins, hends⟩
    refine ⟨before.length, List.mem_range.mpr (by simp only [List.length_append]; omega), ?_, ?_⟩
    · rwa [List.append_assoc, List.take_left]
    · rw [List.append_assoc, List.drop_left, dropStart?_append, Option.any_some, hends]
  · rintro ⟨i, -, hbegins, h⟩
    cases hrest : dropStart? word (s.drop i) with
    | none =>
      rw [hrest] at h
      cases h
    | some rest =>
      rw [hrest, Option.any_some] at h
      refine ⟨s.take i, rest, ?_, hbegins, h⟩
      rw [List.append_assoc, ← dropStart?_eq_some_iff.mp hrest, List.take_append_drop]

instance (word s : List Char) : Decidable (HoldsWord word s) :=
  decidable_of_iff _ holdsWord_iff.symm

namespace Written

/-- Blanks and line ends, or nothing. -/
structure Blanks where
  text : List Char
  blank : ∀ c ∈ text, isBlank c = true

/-- Blanks and line ends, at least one. -/
structure Gap extends Blanks where
  nonempty : text ≠ []

/-- An identifier; its first character is an ASCII one. -/
structure Name where
  text : List Char
  starts : text.head?.any isIdentifierStart = true
  parts : ∀ c ∈ text, isIdentifierPart c = true

/-- The name of a module, within its quotes. -/
structure Module where
  text : List Char
  nonempty : text ≠ []
  unquoted : ∀ c ∈ text, isQuote c = false ∧ c ≠ '\\' ∧ c ≠ '\n'
  noImport : ¬HoldsWord "import".toList text
  noExport : ¬HoldsWord "export".toList text

/-- The name in the quotes that it is loaded with. -/
def Module.quoted (m : Module) : List Char := '\'' :: m.text ++ ['\'']

/-- The name of a module in quotes, up to the semicolon. -/
structure Origin where
  before : Blanks
  quote : Char
  quotes : isQuote quote = true
  module : Module
  after : Blanks

def Origin.text (o : Origin) : List Char :=
  o.before.text ++ o.quote :: o.module.text ++ o.quote :: o.after.text ++ [';']

/-- `name` or `name as other`, with the blanks around it. -/
inductive Entry where
  | plain (before : Blanks) (name : Name) (after : Blanks)
  | renamed (before : Blanks) (source : Name) (beforeAs afterAs : Gap) (localName : Name)
    (after : Blanks)

namespace Entry

def text : Entry → List Char
  | plain before name after => before.text ++ name.text ++ after.text
  | renamed before source beforeAs afterAs localName after =>
    before.text ++ source.text ++ beforeAs.text ++ "as".toList ++ afterAs.text ++ localName.text
      ++ after.text

def specifier : Entry → Specifier
  | plain _ name _ => ⟨name.text, name.text⟩
  | renamed _ source _ _ localName _ => ⟨source.text, localName.text⟩

end Entry

/-- The names between two braces. The last one may have a comma behind it. -/
inductive Names where
  | none (blanks : Blanks)
  | last (entry : Entry)
  | more (entry : Entry) (rest : Names)

namespace Names

def text : Names → List Char
  | none blanks => blanks.text
  | last entry => entry.text
  | more entry rest => entry.text ++ ',' :: rest.text

def specifiers : Names → List Specifier
  | none _ => []
  | last entry => [entry.specifier]
  | more entry rest => entry.specifier :: rest.specifiers

end Names

end Written

open Written in
/-- A declaration as it is written, by its tokens and what stands between them. -/
inductive Written where
  | importDefaultAndWhole (beforeName : Gap) (name : Name)
    (beforeComma afterComma afterStar : Blanks) (afterAs : Gap) (whole : Name) (beforeFrom : Gap)
    (origin : Origin)
  | importDefaultAndNamed (beforeName : Gap) (name : Name) (beforeComma afterComma : Blanks)
    (named : Names) (beforeFrom : Blanks) (origin : Origin)
  | importWhole (beforeStar afterStar : Blanks) (afterAs : Gap) (whole : Name) (beforeFrom : Gap)
    (origin : Origin)
  | importNamed (before : Blanks) (named : Names) (beforeFrom : Blanks) (origin : Origin)
  | importDefault (beforeName : Gap) (name : Name) (beforeFrom : Gap) (origin : Origin)
  | importBare (origin : Origin)
  | exportNamedFrom (before : Blanks) (named : Names) (beforeFrom : Blanks) (origin : Origin)
  | exportAllFrom (beforeStar beforeFrom : Blanks) (origin : Origin)

namespace Written

def form : Written → Form
  | importDefaultAndWhole .. => .importDefaultAndWhole
  | importDefaultAndNamed .. => .importDefaultAndNamed
  | importWhole .. => .importWhole
  | importNamed .. => .importNamed
  | importDefault .. => .importDefault
  | importBare .. => .importBare
  | exportNamedFrom .. => .exportNamedFrom
  | exportAllFrom .. => .exportAllFrom

/-- What stands behind the first word of a declaration. -/
def clause : Written → List Char
  | importDefaultAndWhole beforeName name beforeComma afterComma afterStar afterAs whole beforeFrom
      origin =>
    beforeName.text ++ name.text ++ beforeComma.text ++ ',' :: afterComma.text
      ++ '*' :: afterStar.text ++ "as".toList ++ afterAs.text ++ whole.text ++ beforeFrom.text
      ++ "from".toList ++ origin.text
  | importDefaultAndNamed beforeName name beforeComma afterComma named beforeFrom origin =>
    beforeName.text ++ name.text ++ beforeComma.text ++ ',' :: afterComma.text
      ++ '{' :: named.text ++ '}' :: beforeFrom.text ++ "from".toList ++ origin.text
  | importWhole beforeStar afterStar afterAs whole beforeFrom origin =>
    beforeStar.text ++ '*' :: afterStar.text ++ "as".toList ++ afterAs.text ++ whole.text
      ++ beforeFrom.text ++ "from".toList ++ origin.text
  | importNamed before named beforeFrom origin =>
    before.text ++ '{' :: named.text ++ '}' :: beforeFrom.text ++ "from".toList ++ origin.text
  | importDefault beforeName name beforeFrom origin =>
    beforeName.text ++ name.text ++ beforeFrom.text ++ "from".toList ++ origin.text
  | importBare origin => origin.text
  | exportNamedFrom before named beforeFrom origin =>
    before.text ++ '{' :: named.text ++ '}' :: beforeFrom.text ++ "from".toList ++ origin.text
  | exportAllFrom beforeStar beforeFrom origin =>
    beforeStar.text ++ '*' :: beforeFrom.text ++ "from".toList ++ origin.text

def text (w : Written) : List Char := w.form.opening ++ w.clause

end Written

/-! ## Translations -/

namespace Written

/-- The property of a destructuring pattern that binds what the module calls `source`. -/
def Entry.pattern : Entry → List Char
  | plain _ name _ => name.text
  | renamed _ source _ _ localName _ =>
    if source.text = localName.text then source.text
    else source.text ++ ": ".toList ++ localName.text

/-- The assignment that exports what `module` calls `source`. -/
def Entry.assignment (module : Module) : Entry → List Char
  | plain _ name _ =>
    "module.exports.".toList ++ name.text ++ " = require(".toList ++ module.quoted ++ ").".toList
      ++ name.text ++ ";".toList
  | renamed _ source _ _ localName _ =>
    "module.exports.".toList ++ localName.text ++ " = require(".toList ++ module.quoted
      ++ ").".toList ++ source.text ++ ";".toList

def Names.entries : Names → List Entry
  | none _ => []
  | last entry => [entry]
  | more entry rest => entry :: rest.entries

def Names.pattern (named : Names) : List Char :=
  List.intercalate ", ".toList (named.entries.map Entry.pattern)

def Names.assignments (module : Module) (named : Names) : List Char :=
  List.intercalate " ".toList (named.entries.map (Entry.assignment module))

/-- The binding that keeps the module of a default import that comes with named ones. -/
def Name.holder (n : Name) : List Char := "__module_".toList ++ n.text

/-- The code that a declaration is translated to. A default import falls back to the whole module,
and one that comes with others shares their load. -/
def translation : Written → List Char
  | importDefaultAndWhole _ name _ _ _ _ whole _ origin =>
    "const ".toList ++ whole.text ++ " = require(".toList ++ origin.module.quoted
      ++ "); const ".toList ++ name.text
      ++ " = ((m) => (m && m.default !== undefined ? m.default : m))(".toList ++ whole.text
      ++ ");".toList
  | importDefaultAndNamed _ name _ _ named _ origin =>
    "const ".toList ++ name.holder ++ " = require(".toList ++ origin.module.quoted
      ++ "); const \x7b ".toList ++ named.pattern ++ " \x7d = ".toList ++ name.holder
      ++ "; const ".toList ++ name.text
      ++ " = ((m) => (m && m.default !== undefined ? m.default : m))(".toList ++ name.holder
      ++ ");".toList
  | importWhole _ _ _ whole _ origin =>
    "const ".toList ++ whole.text ++ " = require(".toList ++ origin.module.quoted ++ ");".toList
  | importNamed _ named _ origin =>
    "const \x7b ".toList ++ named.pattern ++ " \x7d = require(".toList ++ origin.module.quoted
      ++ ");".toList
  | importDefault _ name _ origin =>
    "const ".toList ++ name.text
      ++ " = ((m) => (m && m.default !== undefined ? m.default : m))(require(".toList
      ++ origin.module.quoted ++ "));".toList
  | importBare origin => "require(".toList ++ origin.module.quoted ++ ");".toList
  | exportNamedFrom _ named _ origin => named.assignments origin.module
  | exportAllFrom _ _ origin =>
    "Object.assign(module.exports, require(".toList ++ origin.module.quoted ++ "));".toList

end Written

/-! ## Reading tokens -/

/-- A test tells two characters apart. -/
theorem ne_of_test {p : Char → Bool} {c d : Char} (hc : p c = true) (hd : p d = false) : c ≠ d := by
  rintro rfl
  rw [hd] at hc
  cases hc

theorem not_isIdentifierPart_of_isBlank {c : Char} (h : isBlank c = true) :
    isIdentifierPart c = false := by
  have hdollar : c ≠ '$' := ne_of_test h (by decide)
  simp [isIdentifierPart, not_isWord_of_isBlank h, hdollar]

theorem not_isBlank_of_isIdentifierPart {c : Char} (h : isIdentifierPart c = true) :
    isBlank c = false := by
  rw [← Bool.not_eq_true]
  intro hblank
  rw [not_isIdentifierPart_of_isBlank hblank] at h
  cases h

namespace Written

theorem Blanks.trimStart_append (b : Blanks) (s : List Char) :
    trimStart (b.text ++ s) = trimStart s :=
  List.dropWhile_append_of_pos b.blank

/-- What holds of no blank, and not of what follows the blanks, does not hold behind them. -/
theorem Blanks.head?_all_append (b : Blanks) {p : Char → Bool} {s : List Char}
    (hp : ∀ c, isBlank c = true → p c = false) (hs : s.head?.all p = false) :
    (b.text ++ s).head?.all p = false := by
  cases htext : b.text with
  | nil => exact hs
  | cons c text => exact hp c (b.blank c (by rw [htext]; exact List.mem_cons_self ..))

theorem Gap.head?_all_append (g : Gap) {p : Char → Bool}
    (hp : ∀ c, isBlank c = true → p c = false) (s : List Char) :
    (g.text ++ s).head?.all p = false := by
  obtain ⟨c, text, htext⟩ := List.exists_cons_of_ne_nil g.nonempty
  rw [htext]
  exact hp c (g.blank c (by rw [htext]; exact List.mem_cons_self ..))

theorem Gap.someBlanks?_append (g : Gap) {s : List Char} (hs : s.head?.all isBlank = false) :
    someBlanks? (g.text ++ s) = some s := by
  refine someBlanks?_eq_some_iff.mpr ⟨g.text, g.nonempty, g.blank, rfl, ?_⟩
  cases s with
  | nil => cases hs
  | cons c s => exact hs

theorem Name.nonempty (n : Name) : n.text ≠ [] := by
  intro h
  have hstarts := n.starts
  rw [h] at hstarts
  cases hstarts

theorem Name.not_isBlank (n : Name) : ∀ c ∈ n.text, isBlank c = false :=
  fun c hc => not_isBlank_of_isIdentifierPart (n.parts c hc)

theorem Name.head?_all_append (n : Name) {p : Char → Bool}
    (hp : ∀ c, isIdentifierPart c = true → p c = false) (s : List Char) :
    (n.text ++ s).head?.all p = false := by
  obtain ⟨c, text, htext⟩ := List.exists_cons_of_ne_nil n.nonempty
  rw [htext]
  exact hp c (n.parts c (by rw [htext]; exact List.mem_cons_self ..))

theorem Name.head?_all_isBlank (n : Name) (s : List Char) :
    (n.text ++ s).head?.all isBlank = false :=
  n.head?_all_append (fun _ => not_isBlank_of_isIdentifierPart) s

theorem Name.trimStart_append (n : Name) (s : List Char) :
    trimStart (n.text ++ s) = n.text ++ s := by
  obtain ⟨c, text, htext⟩ := List.exists_cons_of_ne_nil n.nonempty
  have hc := n.not_isBlank c (by rw [htext]; exact List.mem_cons_self ..)
  rw [htext]
  exact List.dropWhile_cons_of_neg (by simp [hc])

theorem Name.identifier?_append (n : Name) {s : List Char}
    (hs : s.head?.all isIdentifierPart = false) :
    identifier? (n.text ++ s) = some (n.text, s) := by
  have hstart : (n.text ++ s).head?.any isIdentifierStart = true := by
    obtain ⟨c, text, htext⟩ := List.exists_cons_of_ne_nil n.nonempty
    have hstarts := n.starts
    rw [htext] at hstarts ⊢
    exact hstarts
  have htake : s.takeWhile isIdentifierPart = [] := by
    cases s with
    | nil => rfl
    | cons c s => exact List.takeWhile_cons_of_neg (by simpa using hs)
  have hdrop : s.dropWhile isIdentifierPart = s := by
    cases s with
    | nil => rfl
    | cons c s => exact List.dropWhile_cons_of_neg (by simpa using hs)
  rw [identifier?, if_pos hstart, List.takeWhile_append_of_pos n.parts,
    List.dropWhile_append_of_pos n.parts, htake, hdrop, List.append_nil]

theorem Origin.text_append (o : Origin) (rest : List Char) :
    o.text ++ rest =
      o.before.text ++ o.quote :: (o.module.text ++ o.quote :: (o.after.text ++ ';' :: rest)) := by
  simp only [text, List.append_assoc, List.cons_append, List.nil_append]

theorem not_of_isQuote (p : Char → Bool) (hsingle : p '\'' = false) (hdouble : p '"' = false)
    {c : Char} (hc : isQuote c = true) : p c = false := by
  simp only [isQuote, Bool.or_eq_true, decide_eq_true_eq] at hc
  rcases hc with rfl | rfl
  · exact hsingle
  · exact hdouble

theorem Origin.trimStart_append (o : Origin) (rest : List Char) :
    trimStart (o.text ++ rest) =
      o.quote :: (o.module.text ++ o.quote :: (o.after.text ++ ';' :: rest)) := by
  have hblank : isBlank o.quote = false := not_of_isQuote isBlank (by decide) (by decide) o.quotes
  rw [o.text_append, o.before.trimStart_append]
  exact List.dropWhile_cons_of_neg (by simp [hblank])

theorem Origin.head?_all_append (o : Origin) (rest : List Char) :
    (o.text ++ rest).head?.all isIdentifierPart = false := by
  rw [o.text_append]
  exact o.before.head?_all_append (fun _ => not_isIdentifierPart_of_isBlank)
    (not_of_isQuote isIdentifierPart (by decide) (by decide) o.quotes)

theorem moduleName?_quoted {quote : Char} (hquote : isQuote quote = true) {m : List Char}
    (hm : m ≠ []) (hunquoted : ∀ c ∈ m, isQuote c = false ∧ c ≠ '\n') (rest : List Char) :
    moduleName? (quote :: (m ++ quote :: rest)) = some (m, rest) := by
  have htake : (m ++ quote :: rest).takeWhile (fun d => !isQuote d && d ≠ '\n') = m := by
    rw [List.takeWhile_append_of_pos, List.takeWhile_cons_of_neg, List.append_nil]
    · simp [hquote]
    · intro c hc
      obtain ⟨hc, hline⟩ := hunquoted c hc
      simp [hc, hline]
  rw [moduleName?, htake, List.drop_left]
  exact if_pos (by simp [hquote, hm])

theorem Origin.moduleName?_append (o : Origin) (rest : List Char) :
    moduleName? (trimStart (o.text ++ rest)) =
      some (o.module.text, o.after.text ++ ';' :: rest) := by
  rw [o.trimStart_append]
  refine moduleName?_quoted o.quotes o.module.nonempty (fun c hc => ?_) _
  obtain ⟨hunquoted, -, hline⟩ := o.module.unquoted c hc
  exact ⟨hunquoted, hline⟩

theorem Blanks.declarationEnd_append (b : Blanks) (rest : List Char) :
    declarationEnd (b.text ++ ';' :: rest) = rest := by
  rw [declarationEnd, b.trimStart_append]
  rfl

theorem Origin.fromModule?_append (o : Origin) (rest : List Char) :
    fromModule? ("from".toList ++ (o.text ++ rest)) = some (o.module.text, rest) := by
  rw [fromModule?, dropStart?_append, Option.bind_eq_bind, Option.bind_some,
    o.moduleName?_append, Option.bind_eq_bind, Option.bind_some]
  exact congrArg (fun end_ => some (o.module.text, end_)) (o.after.declarationEnd_append rest)

/-! ## Reading the names between braces -/

theorem Entry.of_mem_text {e : Entry} {c : Char} (hc : c ∈ e.text) :
    isBlank c = true ∨ isIdentifierPart c = true := by
  cases e with
  | plain before name after =>
    simp only [text, List.mem_append] at hc
    rcases hc with (hc | hc) | hc
    · exact .inl (before.blank c hc)
    · exact .inr (name.parts c hc)
    · exact .inl (after.blank c hc)
  | renamed before source beforeAs afterAs localName after =>
    simp only [text, List.mem_append] at hc
    rcases hc with (((((hc | hc) | hc) | hc) | hc) | hc) | hc
    · exact .inl (before.blank c hc)
    · exact .inr (source.parts c hc)
    · exact .inl (beforeAs.blank c hc)
    · have has : ∀ d ∈ "as".toList, isIdentifierPart d = true := List.all_eq_true.mp (by decide)
      exact .inr (has c hc)
    · exact .inl (afterAs.blank c hc)
    · exact .inr (localName.parts c hc)
    · exact .inl (after.blank c hc)

theorem Names.of_mem_text {named : Names} {c : Char} (hc : c ∈ named.text) :
    isBlank c = true ∨ isIdentifierPart c = true ∨ c = ',' := by
  induction named with
  | none blanks => exact .inl (blanks.blank c hc)
  | last entry => exact (Entry.of_mem_text hc).imp_right .inl
  | more entry rest ih =>
    rcases List.mem_append.mp hc with hc | hc
    · exact (Entry.of_mem_text hc).imp_right .inl
    · rcases List.mem_cons.mp hc with rfl | hc
      · exact .inr (.inr rfl)
      · exact ih hc

theorem Entry.ne_comma {e : Entry} : ∀ c ∈ e.text, decide (c = ',') = false := by
  intro c hc
  refine decide_eq_false ?_
  rintro rfl
  rcases Entry.of_mem_text hc with h | h <;> exact absurd h (by decide)

theorem Names.braceless (named : Names) : '}' ∉ named.text := by
  intro hc
  rcases Names.of_mem_text hc with h | h | h <;> exact absurd h (by decide)

theorem not_isBlank_as : ∀ c ∈ "as".toList, isBlank c = false := by
  intro c hc
  simpa using List.all_eq_true.mp (show "as".toList.all (!isBlank ·) = true by decide) c hc

/-- Between its blanks an entry has one word, or three. -/
theorem Entry.trim_text (e : Entry) :
    trim e.text ≠ [] ∧ Specifier.ofWords (splitWords (trim e.text)) = e.specifier := by
  cases e with
  | plain before name after =>
    have htrim : trim (text (plain before name after)) = name.text :=
      trim_append before.blank after.blank (fun c hc => name.not_isBlank c (List.mem_of_head? hc))
        (fun c hc => name.not_isBlank c (List.mem_of_getLast? hc)) name.nonempty
    rw [htrim, splitWords_word name.not_isBlank name.nonempty]
    exact ⟨name.nonempty, rfl⟩
  | renamed before source beforeAs afterAs localName after =>
    have htrim : trim (text (renamed before source beforeAs afterAs localName after)) =
        source.text ++ (beforeAs.text ++ ("as".toList ++ (afterAs.text ++ localName.text))) := by
      have hassoc : text (renamed before source beforeAs afterAs localName after) = before.text ++
          (source.text ++ (beforeAs.text ++ ("as".toList ++ (afterAs.text ++ localName.text))))
            ++ after.text := by
        simp only [text, List.append_assoc]
      rw [hassoc]
      refine trim_append before.blank after.blank (fun c hc => ?_) (fun c hc => ?_) ?_
      · rw [List.head?_append_of_ne_nil _ source.nonempty] at hc
        exact source.not_isBlank c (List.mem_of_head? hc)
      · simp only [← List.append_assoc] at hc
        rw [List.getLast?_append_of_ne_nil _ localName.nonempty] at hc
        exact localName.not_isBlank c (List.mem_of_getLast? hc)
      · exact List.append_ne_nil_of_left_ne_nil source.nonempty _
    rw [htrim, splitWords_cons source.not_isBlank source.nonempty beforeAs.blank beforeAs.nonempty,
      splitWords_cons not_isBlank_as (by decide) afterAs.blank afterAs.nonempty,
      splitWords_word localName.not_isBlank localName.nonempty]
    exact ⟨List.append_ne_nil_of_left_ne_nil source.nonempty _, rfl⟩

theorem Blanks.trim_text (b : Blanks) : trim b.text = [] := by
  rw [trim, trimStart, List.dropWhile_eq_nil_iff.mpr b.blank]
  rfl

theorem Names.ofList_text (named : Names) : Specifier.ofList named.text = named.specifiers := by
  unfold Specifier.ofList
  induction named with
  | none blanks =>
    have hcomma : ∀ c ∈ blanks.text, decide (c = ',') = false := by
      intro c hc
      refine decide_eq_false ?_
      rintro rfl
      exact absurd (blanks.blank ',' hc) (by decide)
    rw [text, splitBetween_of_unmarked hcomma, List.map_singleton, blanks.trim_text]
    rfl
  | last entry =>
    obtain ⟨hne, hwords⟩ := entry.trim_text
    rw [text, splitBetween_of_unmarked Entry.ne_comma, List.map_singleton,
      List.filter_cons_of_pos (by simpa using hne), List.map_cons, Function.comp_apply, hwords]
    rfl
  | more entry rest ih =>
    obtain ⟨hne, hwords⟩ := entry.trim_text
    rw [text, splitBetween_append_marked _ Entry.ne_comma (decide_eq_true rfl), List.map_cons,
      List.filter_cons_of_pos (by simpa using hne), List.map_cons, Function.comp_apply, hwords, ih]
    rfl

/-- A list ends at the first brace. -/
theorem bracedList?_append {list : List Char} (h : '}' ∉ list) (rest : List Char) :
    bracedList? ('{' :: (list ++ '}' :: rest)) = some (Specifier.ofList list, rest) := by
  have hlist : ∀ c ∈ list, decide (c ≠ '}') = true :=
    fun c hc => decide_eq_true fun e => h (e ▸ hc)
  have htake : (list ++ '}' :: rest).takeWhile (· ≠ '}') = list := by
    rw [List.takeWhile_append_of_pos hlist, List.takeWhile_cons_of_neg (by simp), List.append_nil]
  rw [bracedList?, htake, List.drop_left]
  rfl

theorem Names.bracedList?_text (named : Names) (rest : List Char) :
    bracedList? ('{' :: (named.text ++ '}' :: rest)) = some (named.specifiers, rest) := by
  rw [bracedList?_append named.braceless, named.ofList_text]

/-! ## Reading declarations -/

/-- What a written declaration is read as. -/
def declaration : Written → Declaration
  | importDefaultAndWhole _ name _ _ _ _ whole _ origin =>
    .importDefaultAndWhole name.text whole.text origin.module.text
  | importDefaultAndNamed _ name _ _ named _ origin =>
    .importDefaultAndNamed name.text named.specifiers origin.module.text
  | importWhole _ _ _ whole _ origin => .importWhole whole.text origin.module.text
  | importNamed _ named _ origin => .importNamed named.specifiers origin.module.text
  | importDefault _ name _ origin => .importDefault name.text origin.module.text
  | importBare origin => .importBare origin.module.text
  | exportNamedFrom _ named _ origin => .exportNamedFrom named.specifiers origin.module.text
  | exportAllFrom _ _ origin => .exportAllFrom origin.module.text

theorem defaultName?_append (beforeName : Gap) (name : Name) (beforeComma afterComma : Blanks)
    {s : List Char} (hs : trimStart s = s) :
    defaultName? (beforeName.text ++ (name.text ++ (beforeComma.text ++ ',' ::
      (afterComma.text ++ s)))) = some (name.text, s) := by
  have hname := name.identifier?_append (s := beforeComma.text ++ ',' :: (afterComma.text ++ s))
    (beforeComma.head?_all_append (fun _ => not_isIdentifierPart_of_isBlank)
      (show isIdentifierPart ',' = false by decide))
  have hcomma : dropStart? ",".toList (',' :: (afterComma.text ++ s)) =
      some (afterComma.text ++ s) :=
    dropStart?_append [','] _
  have htrim : trimStart (',' :: (afterComma.text ++ s)) = ',' :: (afterComma.text ++ s) := rfl
  rw [defaultName?, beforeName.someBlanks?_append (name.head?_all_isBlank _)]
  simp only [Option.bind_eq_bind, Option.bind_some, hname, beforeComma.trimStart_append, htrim,
    hcomma, afterComma.trimStart_append, hs]
  rfl

theorem wholeModule?_append (afterStar : Blanks) (afterAs : Gap) (whole : Name) (beforeFrom : Gap)
    {s : List Char} (hs : s.head?.all isBlank = false) :
    wholeModule? ('*' :: (afterStar.text ++ ("as".toList ++ (afterAs.text ++ (whole.text ++
      (beforeFrom.text ++ s)))))) = some (whole.text, s) := by
  have hstar (r : List Char) : dropStart? "*".toList ('*' :: r) = some r :=
    dropStart?_append ['*'] r
  have htrim (r : List Char) : trimStart ("as".toList ++ r) = "as".toList ++ r := rfl
  have hwhole := whole.identifier?_append (s := beforeFrom.text ++ s)
    (beforeFrom.head?_all_append (fun _ => not_isIdentifierPart_of_isBlank) s)
  rw [wholeModule?, hstar]
  simp only [Option.bind_eq_bind, Option.bind_some, afterStar.trimStart_append, htrim,
    dropStart?_append, afterAs.someBlanks?_append (whole.head?_all_isBlank _), hwhole,
    beforeFrom.someBlanks?_append hs]
  rfl

/-- A written declaration is read as what it declares, up to its semicolon. -/
theorem read?_text (w : Written) (rest : List Char) :
    w.form.read? (w.text ++ rest) = some (w.declaration, rest) := by
  have hstar (s : List Char) : trimStart ('*' :: s) = '*' :: s := rfl
  have hbrace (s : List Char) : trimStart ('{' :: s) = '{' :: s := rfl
  have hfrom (s : List Char) : trimStart ("from".toList ++ s) = "from".toList ++ s := rfl
  have hfromHead (s : List Char) : ("from".toList ++ s).head?.all isBlank = false := rfl
  cases w <;> unfold text clause form declaration Form.opening Form.read? <;> dsimp only <;>
    simp only [List.append_assoc, List.cons_append, dropStart?_append, Option.bind_eq_bind,
      Option.bind_some, Blanks.trimStart_append]
  case importDefaultAndWhole beforeName name beforeComma afterComma afterStar afterAs whole
      beforeFrom origin =>
    simp only [defaultName?_append _ _ _ _ (hstar _), wholeModule?_append _ _ _ _ (hfromHead _),
      origin.fromModule?_append, Option.bind_some]
    rfl
  case importDefaultAndNamed beforeName name beforeComma afterComma named beforeFrom origin =>
    simp only [defaultName?_append _ _ _ _ (hbrace _), named.bracedList?_text,
      beforeFrom.trimStart_append, hfrom, origin.fromModule?_append, Option.bind_some]
    rfl
  case importWhole beforeStar afterStar afterAs whole beforeFrom origin =>
    simp only [hstar, wholeModule?_append _ _ _ _ (hfromHead _), origin.fromModule?_append,
      Option.bind_some]
    rfl
  case importNamed before named beforeFrom origin =>
    simp only [hbrace, named.bracedList?_text, beforeFrom.trimStart_append, hfrom,
      origin.fromModule?_append, Option.bind_some]
    rfl
  case importDefault beforeName name beforeFrom origin =>
    simp only [beforeName.someBlanks?_append (name.head?_all_isBlank _),
      name.identifier?_append (beforeFrom.head?_all_append
        (fun _ => not_isIdentifierPart_of_isBlank) _),
      beforeFrom.someBlanks?_append (hfromHead _), origin.fromModule?_append, Option.bind_some]
    rfl
  case importBare origin =>
    simp only [origin.moduleName?_append, origin.after.declarationEnd_append, Option.bind_some]
    rfl
  case exportNamedFrom before named beforeFrom origin =>
    simp only [hbrace, named.bracedList?_text, beforeFrom.trimStart_append, hfrom,
      origin.fromModule?_append, Option.bind_some]
    rfl
  case exportAllFrom beforeStar beforeFrom origin =>
    have hdrop (s : List Char) : dropStart? "*".toList ('*' :: s) = some s :=
      dropStart?_append ['*'] s
    simp only [hstar, hdrop, beforeFrom.trimStart_append, hfrom, origin.fromModule?_append,
      Option.bind_some]
    rfl

/-! ## The code for a declaration -/

theorem Entry.pattern_specifier (e : Entry) : e.specifier.pattern = e.pattern := by
  cases e with
  | plain _ name _ => exact if_pos rfl
  | renamed _ source _ _ localName _ => rfl

theorem Entry.exportAssignment_specifier (module : Module) (e : Entry) :
    exportAssignment module.text e.specifier = e.assignment module := by
  cases e <;>
    dsimp only [exportAssignment, loadCall, assignment, specifier, Module.quoted] <;>
    simp only [String.reduceToList, List.append_assoc, List.cons_append, List.nil_append]

theorem Names.specifiers_eq (named : Names) :
    named.specifiers = named.entries.map Entry.specifier := by
  induction named with
  | none _ => rfl
  | last _ => rfl
  | more entry rest ih => exact congrArg (entry.specifier :: ·) ih

theorem Names.destructuring_specifiers (named : Names) :
    destructuring named.specifiers = "\x7b ".toList ++ named.pattern ++ " \x7d".toList := by
  rw [destructuring, named.specifiers_eq, List.map_map,
    show Specifier.pattern ∘ Entry.specifier = Entry.pattern from funext Entry.pattern_specifier]
  rfl

/-- The code for what a declaration is read as is its translation. -/
theorem render_declaration (w : Written) : w.declaration.render = w.translation := by
  cases w <;> unfold declaration Declaration.render translation <;> dsimp only
  case exportNamedFrom named _ origin =>
    have hassignment : exportAssignment origin.module.text ∘ Entry.specifier =
        Entry.assignment origin.module :=
      funext (Entry.exportAssignment_specifier origin.module)
    rw [named.specifiers_eq, List.map_map, hassignment]
    rfl
  -- the literals of both sides are cut at other places
  all_goals
    dsimp only [constant, loadCall, defaultOf, moduleHolder, Module.quoted, Name.holder]
    simp only [Names.destructuring_specifiers, String.reduceToList, List.append_assoc,
      List.cons_append, List.nil_append]

end Written

end SnippetRunner.Script
