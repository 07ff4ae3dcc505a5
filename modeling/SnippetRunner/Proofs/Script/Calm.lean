import SnippetRunner.Proofs.Script.Inert
import SnippetRunner.Proofs.Source.Lexing

/-
  Calm texts. A pass over the declarations of a form leaves such a text as it is, whatever follows
  it: at none of its words a declaration is read (`Quiet`), and code goes on behind it. What stands
  behind the first word of a declaration is calm (`Written.calm_clause`), and so is its translation
  (`Written.calm_translation`).
-/
namespace SnippetRunner.Script

open SnippetRunner.Text SnippetRunner.Source Written

/-! ## Quiet texts -/

/-- No declaration of a form is read at a word of the text, with `rest` behind it. -/
def Quiet (form : Form) (rest : List Char) : (afterWord : Bool) → List Char → Prop
  | _, [] => True
  | afterWord, c :: s =>
    (afterWord = false → form.read? (c :: s ++ rest) = none) ∧ Quiet form rest (isWord c) s

section Quiet

variable {form : Form} {rest a b s : List Char} {afterWord : Bool}

theorem Quiet.of_false (h : Quiet form rest false s) (afterWord : Bool) :
    Quiet form rest afterWord s := by
  cases s with
  | nil => trivial
  | cons c s => exact ⟨fun _ => h.1 rfl, h.2⟩

theorem Quiet.append (ha : Quiet form (b ++ rest) afterWord a) (hb : Quiet form rest false b) :
    Quiet form rest afterWord (a ++ b) := by
  induction a generalizing afterWord with
  | nil => exact hb.of_false afterWord
  | cons c a ih =>
    refine ⟨fun hword => ?_, ih ha.2⟩
    have hread := ha.1 hword
    rwa [← List.append_assoc] at hread

theorem quiet_of_forall {before : List Char}
    (h : ∀ a b, s = a ++ b → b ≠ [] → wordBegins (a.reverse ++ before) = true →
      form.read? (b ++ rest) = none) : Quiet form rest (before.head?.any isWord) s := by
  induction s generalizing before with
  | nil => trivial
  | cons c s ih =>
    refine ⟨fun hword => ?_, ?_⟩
    · exact h [] (c :: s) rfl (List.cons_ne_nil _ _) (by simp [wordBegins, wordEnds, hword])
    · refine @ih (c :: before) fun a b hs hb hbegins => ?_
      refine h (c :: a) b (by rw [hs, List.cons_append]) hb ?_
      rwa [List.reverse_cons, List.append_assoc, List.singleton_append]

/-- Within a word none begins. -/
theorem quiet_of_letters (hs : s.all isWord = true) : Quiet form rest true s := by
  induction s with
  | nil => trivial
  | cons c s ih =>
    rw [List.all_cons, Bool.and_eq_true] at hs
    refine ⟨nofun, ?_⟩
    rw [hs.1]
    exact ih hs.2

theorem quiet_word (hs : s.all isWord = true) (h : form.read? (s ++ rest) = none) :
    Quiet form rest false s := by
  cases s with
  | nil => trivial
  | cons c s =>
    rw [List.all_cons, Bool.and_eq_true] at hs
    refine ⟨fun _ => h, ?_⟩
    rw [hs.1]
    exact quiet_of_letters hs.2

/-- The first word of a declaration runs over the end of a text only if a word does. -/
theorem opening_of_append {form : Form} {b rest s : List Char} (hb : b ≠ [])
    (h : b ++ rest = form.opening ++ s)
    (hends : b.getLast?.any isWord = false ∨ rest.head?.any isWord = false) :
    ∃ m, b = form.opening ++ m ∧ s = m ++ rest := by
  rcases List.append_eq_append_iff.mp h with ⟨m, hopening, hrest⟩ | h
  · cases m with
    | nil => exact ⟨[], by simpa using hopening.symm, hrest.symm⟩
    | cons d m =>
      have hletters := List.all_eq_true.mp (form.letters_opening)
      rcases hends with hlast | hhead
      · obtain ⟨c, hc⟩ := Option.isSome_iff_exists.mp (List.getLast?_isSome.mpr hb)
        have hword := hletters c (by
          rw [hopening]
          exact List.mem_append_left _ (List.mem_of_getLast? hc))
        rw [hc, Option.any_some, hword] at hlast
        cases hlast
      · have hword := hletters d (by rw [hopening]; simp)
        rw [hrest, List.cons_append, List.head?_cons, Option.any_some, hword] at hhead
        cases hhead
  · exact h

/-- A text without the words that open a declaration, if its own last word ends in it. -/
theorem quiet_of_wordless (himport : ¬HoldsWord "import".toList s)
    (hexport : ¬HoldsWord "export".toList s)
    (hends : s.getLast?.any isWord = false ∨ rest.head?.any isWord = false) :
    Quiet form rest false s := by
  refine @quiet_of_forall form rest s [] fun a b hs hb hbegins => ?_
  cases hread : form.read? (b ++ rest) with
  | none => rfl
  | some read =>
    obtain ⟨u, hu, hword⟩ := Form.wordEnds_of_read? hread
    have hlast : b.getLast?.any isWord = false ∨ rest.head?.any isWord = false := by
      rwa [hs, List.getLast?_append_of_ne_nil _ hb] at hends
    obtain ⟨m, rfl, rfl⟩ := opening_of_append hb (dropStart?_eq_some_iff.mp hu) hlast
    have hm : wordEnds m = true := by
      cases m with
      | nil => rfl
      | cons d m => exact hword
    rw [List.append_nil] at hbegins
    have hholds : HoldsWord form.opening s := ⟨a, m, by rw [hs, List.append_assoc], hbegins, hm⟩
    rcases form.opening_eq with e | e
    · exact absurd (e ▸ hholds) himport
    · exact absurd (e ▸ hholds) hexport

/-- An identifier with what can stand behind one. -/
theorem quiet_of_closes (hs : ∀ c ∈ s, isIdentifierPart c = true) (hb : Closes b) :
    Quiet form (b ++ rest) false s := by
  have hhead : (b ++ rest).head?.any isIdentifierPart = false := by
    cases b with
    | nil => cases hb.stops
    | cons c b => exact hb.stops
  refine @quiet_of_forall form (b ++ rest) s [] fun a t hsplit ht _ => ?_
  cases hread : form.read? (t ++ (b ++ rest)) with
  | none => rfl
  | some read =>
    obtain ⟨u, hu, hword⟩ := Form.wordEnds_of_read? hread
    have hnone : (b ++ rest).head?.any isWord = false := by
      cases hfirst : (b ++ rest).head? with
      | none => rfl
      | some c =>
        rw [hfirst, Option.any_some, isIdentifierPart, Bool.or_eq_false_iff] at hhead
        exact hhead.1
    obtain ⟨m, rfl, rfl⟩ := opening_of_append ht (dropStart?_eq_some_iff.mp hu) (.inr hnone)
    cases m with
    | nil =>
      rw [List.append_nil, hb.inert form rest] at hread
      cases hread
    | cons c m =>
      have hc : c = '$' := by
        have hpart := hs c (by rw [hsplit]; simp)
        have hend : isWord c = false := by simpa [wordEnds] using hword
        simpa [isIdentifierPart, hend] using hpart
      rw [hc, List.append_assoc, inert_dollar m form (b ++ rest)] at hread
      cases hread

end Quiet

/-! ## Calm texts -/

/-- A pass leaves the text as it is, and code goes on behind it. -/
structure Calm (s : List Char) : Prop where
  quiet : ∀ (form : Form) (rest : List Char), Quiet form rest false s
  level : ∀ (l : Lexer) (next : Option Char), l.IsPlain → (l.run s next).IsPlain

/-- A text of code that holds none of the words which open a declaration. -/
structure IsSilent (s : List Char) : Prop where
  plain : s.all Lexer.isPlainChar = true
  noImport : ¬HoldsWord "import".toList s
  noExport : ¬HoldsWord "export".toList s

instance (s : List Char) : Decidable (IsSilent s) :=
  decidable_of_iff (s.all Lexer.isPlainChar = true ∧ ¬HoldsWord "import".toList s ∧
      ¬HoldsWord "export".toList s)
    ⟨fun ⟨hplain, himport, hexport⟩ => ⟨hplain, himport, hexport⟩,
      fun ⟨hplain, himport, hexport⟩ => ⟨hplain, himport, hexport⟩⟩

namespace Calm

variable {a b s : List Char} {c : Char}

theorem nil : Calm [] := ⟨fun _ _ => trivial, fun _ _ hl => hl⟩

theorem append (hquiet : ∀ form rest, Quiet form (b ++ rest) false a)
    (hlevel : ∀ (l : Lexer) (next : Option Char), l.IsPlain → (l.run a next).IsPlain)
    (hb : Calm b) : Calm (a ++ b) where
  quiet form rest := (hquiet form rest).append (hb.quiet form rest)
  level l next hl := by
    rw [Lexer.run_append]
    exact hb.level _ next (hlevel l _ hl)

/-- A fixed text whose last word ends in front of the next. -/
theorem literal (ha : IsSilent a)
    (hends : a.getLast?.any isWord = false ∨ b.head?.all isWord = false) (hb : Calm b) :
    Calm (a ++ b) := by
  refine append (fun form rest => ?_) (fun l next hl => hl.run ha.plain next) hb
  refine quiet_of_wordless ha.noImport ha.noExport (hends.imp_right fun hhead => ?_)
  cases b with
  | nil => cases hhead
  | cons d b => exact hhead

theorem code (ha : IsSilent a ∧ a.getLast?.any isWord = false) (hb : Calm b) : Calm (a ++ b) :=
  literal ha.1 (.inl ha.2) hb

/-- A character that opens neither a word of a declaration nor a string, template or comment. -/
theorem cons (hplain : Lexer.isPlainChar c = true) (hc : c ≠ 'i' ∧ c ≠ 'e') (hs : Calm s) :
    Calm (c :: s) := by
  have hquiet (form : Form) (rest : List Char) : Quiet form (s ++ rest) false [c] :=
    ⟨fun _ => read?_eq_none_of_head hc _, trivial⟩
  refine append hquiet (fun l next hl => hl.run ?_ next) hs
  rw [List.all_cons, hplain]
  rfl

theorem isPlainChar_of_test {p : Char → Bool}
    (hp : ['/', '\'', '"', '\x60'].any p = false) (hc : p c = true) :
    Lexer.isPlainChar c = true := by
  simp only [List.any_cons, List.any_nil, Bool.or_false, Bool.or_eq_false_iff] at hp
  obtain ⟨hslash, hsingle, hdouble, htemplate⟩ := hp
  simp [Lexer.isPlainChar, ne_of_test hc hslash, ne_of_test hc hsingle, ne_of_test hc hdouble,
    ne_of_test hc htemplate]

theorem blanks (gap : Blanks) (hs : Calm s) : Calm (gap.text ++ s) := by
  have hcons {blanks : List Char} (hblanks : ∀ c ∈ blanks, isBlank c = true) :
      Calm (blanks ++ s) := by
    induction blanks with
    | nil => exact hs
    | cons c blanks ih =>
      have hc := hblanks c (List.mem_cons_self ..)
      exact cons (isPlainChar_of_test (by decide) hc)
        ⟨ne_of_test hc (by decide), ne_of_test hc (by decide)⟩
        (ih fun d hd => hblanks d (by simp [hd]))
  exact hcons gap.blank

theorem identifier (ha : ∀ c ∈ a, isIdentifierPart c = true)
    (hcloses : Closes b) (hb : Calm b) : Calm (a ++ b) := by
  refine append (fun form rest => quiet_of_closes ha hcloses) (fun l next hl => ?_) hb
  exact hl.run (List.all_eq_true.mpr fun c hc => isPlainChar_of_test (by decide) (ha c hc)) next

/-- A module in quotes. -/
theorem quoted {quote : Char} (hquote : isQuote quote = true) (m : Module) (hs : Calm s) :
    Calm (quote :: (m.text ++ quote :: s)) := by
  have hne : quote ≠ 'i' ∧ quote ≠ 'e' :=
    ⟨ne_of_test hquote (by decide), ne_of_test hquote (by decide)⟩
  have hmark (form : Form) (rest : List Char) : Quiet form rest false [quote] :=
    ⟨fun _ => read?_eq_none_of_head hne _, trivial⟩
  have hword : isWord quote = false := not_of_isQuote isWord (by decide) (by decide) hquote
  have hsplit : quote :: (m.text ++ quote :: s) = (quote :: m.text ++ [quote]) ++ s := by simp
  rw [hsplit]
  refine append (fun form rest => ?_) (fun l next hl => ?_) hs
  · have hmodule : Quiet form ([quote] ++ (s ++ rest)) false m.text :=
      quiet_of_wordless m.noImport m.noExport (.inr hword)
    rw [List.cons_append]
    exact (hmark form _).append (hmodule.append (hmark form _))
  · refine hl.run_string (by simpa [isQuote] using hquote) (fun c hc => ?_) next
    obtain ⟨hunquoted, hescape, hline⟩ := m.unquoted c hc
    exact ⟨(ne_of_test hquote hunquoted).symm, hescape, hline⟩

/-- Calm pieces with a separator between them. `Ends` is what has to hold behind a piece. -/
theorem intercalate {Ends : List Char → Prop} {separator s : List Char}
    {pieces : List (List Char)} (hends : ∀ u, Ends (separator ++ u))
    (hseparator : ∀ u, Calm u → Calm (separator ++ u))
    (hpieces : ∀ piece ∈ pieces, ∀ u, Ends u → Calm u → Calm (piece ++ u)) (h : Ends s)
    (hs : Calm s) : Calm (List.intercalate separator pieces ++ s) := by
  induction pieces with
  | nil => exact hs
  | cons piece pieces ih =>
    have hpiece := hpieces piece (List.mem_cons_self ..)
    have ih := ih fun p hp => hpieces p (List.mem_cons_of_mem _ hp)
    cases pieces with
    | nil =>
      rw [List.intercalate, List.intersperse_singleton, List.flatten_singleton]
      exact hpiece s h hs
    | cons q pieces =>
      rw [List.intercalate, List.intersperse_cons_cons, List.flatten_cons, List.flatten_cons,
        List.append_assoc, List.append_assoc]
      exact hpiece _ (hends _) (hseparator _ ih)

end Calm

/-! ## Written declarations -/

namespace Written

theorem Name.calm_append (n : Name) {s : List Char} (hcloses : Closes s) (hs : Calm s) :
    Calm (n.text ++ s) :=
  .identifier n.parts hcloses hs

theorem calm_as (afterAs : Gap) {s : List Char} (hs : Calm s) :
    Calm ("as".toList ++ (afterAs.text ++ s)) :=
  .literal (by decide) (.inr (afterAs.head?_all_append (fun _ => not_isWord_of_isBlank) s))
    (.blanks afterAs.toBlanks hs)

theorem Entry.calm_text (e : Entry) {c : Char} (hc : c ∈ [',', '}']) {s : List Char}
    (hs : Calm (c :: s)) : Calm (e.text ++ c :: s) := by
  have hlast (n : Name) (after : Blanks) : Calm (n.text ++ (after.text ++ c :: s)) :=
    n.calm_append (closes_listed after hc s) (.blanks after hs)
  cases e with
  | plain before name after =>
    simp only [text, List.append_assoc]
    exact .blanks before (hlast name after)
  | renamed before source beforeAs afterAs localName after =>
    simp only [text, List.append_assoc]
    exact .blanks before (source.calm_append (closes_as beforeAs afterAs localName after hc s)
      (.blanks beforeAs.toBlanks (calm_as afterAs (hlast localName after))))

theorem Names.calm_text (named : Names) {s : List Char} (hs : Calm ('}' :: s)) :
    Calm (named.text ++ '}' :: s) := by
  induction named with
  | none blanks => exact .blanks blanks hs
  | last entry => exact entry.calm_text (by decide) hs
  | more entry rest ih =>
    rw [text, List.append_assoc, List.cons_append]
    exact entry.calm_text (by decide) (.cons (by decide) (by decide) ih)

theorem Origin.calm_text (o : Origin) : Calm o.text := by
  have htext := o.text_append []
  rw [List.append_nil] at htext
  rw [htext]
  refine .blanks o.before (.quoted o.quotes o.module (.blanks o.after ?_))
  exact .cons (by decide) (by decide) .nil

theorem Origin.calm_from (o : Origin) : Calm ("from".toList ++ o.text) := by
  have hhead := o.head?_all_append []
  rw [List.append_nil] at hhead
  refine .literal (by decide) (.inr ?_) o.calm_text
  cases htext : o.text with
  | nil =>
    rw [htext] at hhead
    cases hhead
  | cons c s =>
    rw [htext, List.head?_cons, Option.all_some, isIdentifierPart, Bool.or_eq_false_iff] at hhead
    exact hhead.1

/-- A name in front of the module that it stands for. -/
theorem Name.calm_from (n : Name) (gap : Gap) (o : Origin) :
    Calm (n.text ++ (gap.text ++ ("from".toList ++ o.text))) :=
  n.calm_append (closes_from gap o) (.blanks gap.toBlanks o.calm_from)

theorem calm_whole (afterStar : Blanks) (afterAs : Gap) (whole : Name) (beforeFrom : Gap)
    (o : Origin) :
    Calm ('*' :: (afterStar.text ++ ("as".toList ++ (afterAs.text ++ (whole.text ++
      (beforeFrom.text ++ ("from".toList ++ o.text))))))) :=
  .cons (by decide) (by decide)
    (.blanks afterStar (calm_as afterAs (whole.calm_from beforeFrom o)))

theorem calm_named (named : Names) (beforeFrom : Blanks) (o : Origin) :
    Calm ('{' :: (named.text ++ '}' :: (beforeFrom.text ++ ("from".toList ++ o.text)))) :=
  .cons (by decide) (by decide)
    (named.calm_text (.cons (by decide) (by decide) (.blanks beforeFrom o.calm_from)))

/-- Behind its first word a declaration is calm. -/
theorem calm_clause (w : Written) : Calm w.clause := by
  cases w <;> simp only [clause, List.append_assoc, List.cons_append]
  case importDefaultAndWhole beforeName name beforeComma afterComma afterStar afterAs whole
      beforeFrom origin =>
    exact .blanks beforeName.toBlanks (name.calm_append (closes_listed beforeComma (by decide) _)
      (.blanks beforeComma (.cons (by decide) (by decide) (.blanks afterComma
        (calm_whole afterStar afterAs whole beforeFrom origin)))))
  case importDefaultAndNamed beforeName name beforeComma afterComma named beforeFrom origin =>
    exact .blanks beforeName.toBlanks (name.calm_append (closes_listed beforeComma (by decide) _)
      (.blanks beforeComma (.cons (by decide) (by decide) (.blanks afterComma
        (calm_named named beforeFrom origin)))))
  case importWhole beforeStar afterStar afterAs whole beforeFrom origin =>
    exact .blanks beforeStar (calm_whole afterStar afterAs whole beforeFrom origin)
  case importNamed before named beforeFrom origin =>
    exact .blanks before (calm_named named beforeFrom origin)
  case importDefault beforeName name beforeFrom origin =>
    exact .blanks beforeName.toBlanks (name.calm_from beforeFrom origin)
  case importBare origin => exact origin.calm_text
  case exportNamedFrom before named beforeFrom origin =>
    exact .blanks before (calm_named named beforeFrom origin)
  case exportAllFrom beforeStar beforeFrom origin =>
    exact .blanks beforeStar (.cons (by decide) (by decide) (.blanks beforeFrom origin.calm_from))

/-! ## Translations -/

theorem Module.calm_quoted (m : Module) {s : List Char} (hs : Calm s) : Calm (m.quoted ++ s) := by
  rw [quoted, List.append_assoc]
  exact .quoted (by decide) m hs

theorem Name.calm_holder (n : Name) {s : List Char} (hcloses : Closes s) (hs : Calm s) :
    Calm (n.holder ++ s) := by
  refine .identifier (fun c hc => ?_) hcloses hs
  rcases List.mem_append.mp hc with hc | hc
  · have hletters : "__module_".toList.all isIdentifierPart = true := by decide
    exact List.all_eq_true.mp hletters c hc
  · exact n.parts c hc

theorem Entry.calm_pattern (e : Entry) {s : List Char} (hcloses : Closes s) (hs : Calm s) :
    Calm (e.pattern ++ s) := by
  cases e with
  | plain _ name _ => exact name.calm_append hcloses hs
  | renamed _ source _ _ localName _ =>
    unfold pattern
    dsimp only
    split
    · exact source.calm_append hcloses hs
    · rw [List.append_assoc, List.append_assoc]
      exact source.calm_append (closes_mark rfl (by decide) rfl)
        (.code (by decide) (localName.calm_append hcloses hs))

theorem Names.calm_pattern (named : Names) {s : List Char} (hcloses : Closes s) (hs : Calm s) :
    Calm (named.pattern ++ s) := by
  refine Calm.intercalate (fun u => closes_mark rfl (by decide) rfl)
    (fun u hu => .code (by decide) hu) (fun piece hpiece u hends hu => ?_)
    hcloses hs
  obtain ⟨e, -, rfl⟩ := List.mem_map.mp hpiece
  exact e.calm_pattern hends hu

theorem calm_assignment (source localName : Name) (module : Module) {s : List Char} (hs : Calm s) :
    Calm ("module.exports.".toList ++ localName.text ++ " = require(".toList ++ module.quoted
      ++ ").".toList ++ source.text ++ ";".toList ++ s) := by
  simp only [List.append_assoc]
  refine .code (by decide) (localName.calm_append
    (closes_mark rfl (by decide) rfl) (.code (by decide)
      (module.calm_quoted (.code (by decide) (source.calm_append
        (closes_mark rfl (by decide) rfl) (.code (by decide) hs))))))

theorem Names.calm_assignments (named : Names) (module : Module) {s : List Char} (hs : Calm s) :
    Calm (named.assignments module ++ s) := by
  refine @Calm.intercalate (fun _ => True) _ _ _ (fun _ => trivial)
    (fun u hu => .code (by decide) hu) (fun piece hpiece u _ hu => ?_)
    trivial hs
  obtain ⟨e, -, rfl⟩ := List.mem_map.mp hpiece
  cases e with
  | plain _ name _ => exact calm_assignment name name module hu
  | renamed _ source _ _ localName _ => exact calm_assignment source localName module hu

/-- The translation of a declaration is calm, with calm text behind it. -/
theorem calm_translation (w : Written) {s : List Char} (hs : Calm s) :
    Calm (w.translation ++ s) := by
  have hequals (u : List Char) : Closes (" = require(".toList ++ u) :=
    closes_mark rfl (by decide) rfl
  have hfallback (u : List Char) :
      Closes (" = ((m) => (m && m.default !== undefined ? m.default : m))(".toList ++ u) :=
    closes_mark rfl (by decide) rfl
  have hend (u : List Char) : Closes (");".toList ++ u) := closes_mark rfl (by decide) rfl
  have hloaded {u : List Char} (m : Module) (hu : Calm u) :
      Calm (" = require(".toList ++ (m.quoted ++ u)) :=
    .code (by decide) (m.calm_quoted hu)
  have hdefault {u : List Char} (hu : Calm u) :
      Calm (" = ((m) => (m && m.default !== undefined ? m.default : m))(".toList ++ u) :=
    .code (by decide +kernel) hu
  cases w <;> unfold translation <;> dsimp only
  case importDefaultAndWhole name _ _ _ _ whole _ origin =>
    simp only [List.append_assoc]
    exact .code (by decide) (whole.calm_append (hequals _) (hloaded origin.module
      (.code (by decide) (name.calm_append (hfallback _) (hdefault
        (whole.calm_append (hend _) (.code (by decide) hs)))))))
  case importDefaultAndNamed name _ _ named _ origin =>
    simp only [List.append_assoc]
    have hname := name.calm_append (hfallback _) (hdefault
      (name.calm_holder (hend _) (.code (by decide) hs)))
    have hnamed : Calm (named.pattern ++ (" \x7d = ".toList ++ (name.holder ++
        ("; const ".toList ++ _)))) :=
      named.calm_pattern (closes_mark rfl (by decide) rfl) (.code (by decide)
        (name.calm_holder (closes_mark rfl (by decide) rfl) (.code (by decide) hname)))
    exact .code (by decide) (name.calm_holder (hequals _)
      (hloaded origin.module (.code (by decide) hnamed)))
  case importWhole whole _ origin =>
    simp only [List.append_assoc]
    exact .code (by decide) (whole.calm_append (hequals _)
      (hloaded origin.module (.code (by decide) hs)))
  case importNamed named _ origin =>
    simp only [List.append_assoc]
    exact .code (by decide) (named.calm_pattern (closes_mark rfl (by decide) rfl)
      (.code (by decide) (origin.module.calm_quoted (.code (by decide) hs))))
  case importDefault name _ origin =>
    simp only [List.append_assoc]
    exact .code (by decide) (name.calm_append (closes_mark rfl (by decide) rfl)
      (.code (by decide +kernel) (origin.module.calm_quoted (.code (by decide) hs))))
  case importBare origin =>
    simp only [List.append_assoc]
    exact .code (by decide) (origin.module.calm_quoted (.code (by decide) hs))
  case exportNamedFrom named _ origin => exact named.calm_assignments origin.module hs
  case exportAllFrom origin =>
    simp only [List.append_assoc]
    exact .code (by decide) (origin.module.calm_quoted (.code (by decide) hs))

end Written

end SnippetRunner.Script
