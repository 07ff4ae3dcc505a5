import Mathlib.Data.List.Forall2
import SnippetRunner.Proofs.Script.Calm
import SnippetRunner.Proofs.Script.LineCount
import SnippetRunner.Script.Normalize

/-
  Module declarations on lines of their own are translated one by one, whatever their forms, the
  blanks in them and their order (`normalize_declarations`). A pass over the declarations of one
  form turns every line into one of its own (`Turns`): a declaration of this form into its
  translation, and any other line, be it translated or not yet, into itself.
-/
namespace SnippetRunner.Script

open SnippetRunner.Text SnippetRunner.Source

/-! ## One pass -/

/-- A pass over the declarations of a form, from where the lexer is in state `l`. -/
def passFrom (form : Form) (l : Lexer) (afterWord : Bool) (ahead : Ahead) (s : List Char) :
    List Char :=
  replaceFrom form afterWord ahead s ((l.glyphsFrom s).map Glyph.region)

section Pass

variable {form : Form} {l : Lexer} {afterWord : Bool} {rest s : List Char}

theorem passFrom_nil (afterWord : Bool) (ahead : Ahead) : passFrom form l afterWord ahead [] = [] :=
  rfl

theorem passFrom_cons {c : Char} (h : afterWord = false → form.read? (c :: s) = none) :
    passFrom form l afterWord .nothing (c :: s) =
      c :: passFrom form (l.step c s.head?).2 (isWord c) .nothing s := by
  refine replaceFrom_of_none ?_
  cases afterWord with
  | true => rfl
  | false => exact h rfl

theorem passFrom_replaced_zero (s : List Char) :
    passFrom form l afterWord (.replaced 0) s = passFrom form l afterWord .nothing s := by
  cases s <;> rfl

/-- A quiet text stays. -/
theorem passFrom_quiet (h : Quiet form rest afterWord s) :
    ∃ word, passFrom form l afterWord .nothing (s ++ rest) =
      s ++ passFrom form (l.run s rest.head?) word .nothing rest := by
  induction s generalizing l afterWord with
  | nil => exact ⟨afterWord, rfl⟩
  | cons c s ih =>
    obtain ⟨word, ih⟩ := @ih (l.step c (s ++ rest).head?).2 _ h.2
    have hread : afterWord = false → form.read? (c :: (s ++ rest)) = none := h.1
    refine ⟨word, ?_⟩
    rw [List.cons_append, passFrom_cons hread, ih, List.head?_append]
    rfl

/-- The rest of a declaration that is replaced goes. -/
theorem passFrom_replaced :
    ∃ word, passFrom form l afterWord (.replaced s.length) (s ++ rest) =
      passFrom form (l.run s rest.head?) word .nothing rest := by
  induction s generalizing l afterWord with
  | nil => exact ⟨afterWord, passFrom_replaced_zero rest⟩
  | cons c s ih =>
    obtain ⟨word, ih⟩ := @ih (l.step c (s ++ rest).head?).2 (isWord c)
    have hstep : passFrom form l afterWord (.replaced (c :: s).length) (c :: s ++ rest) =
        passFrom form (l.step c (s ++ rest).head?).2 (isWord c) (.replaced s.length) (s ++ rest) :=
      rfl
    refine ⟨word, ?_⟩
    rw [hstep, ih, List.head?_append]
    rfl

end Pass

/-- A declaration is replaced by its code and its line ends. -/
theorem passFrom_of_read {form : Form} {l : Lexer} {s rest : List Char} {d : Declaration}
    (hl : l.IsPlain) (hread : form.read? (s ++ rest) = some (d, rest)) (hs : s ≠ []) :
    ∃ word, passFrom form l false .nothing (s ++ rest) =
      d.render ++ List.replicate (newlines s) '\n' ++
        passFrom form (l.run s rest.head?) word .nothing rest := by
  obtain ⟨c, s, rfl⟩ := List.exists_cons_of_ne_nil hs
  have hc : Lexer.isPlainChar c = true := by
    obtain ⟨u, hu, -⟩ := Form.read?_suffix hread
    have hhead := congrArg List.head? hu
    rcases form.opening_eq with e | e <;> rw [e] at hhead <;> rw [Option.some.inj hhead] <;> decide
  obtain ⟨word, hskip⟩ := @passFrom_replaced form (l.step c (s ++ rest).head?).2 (isWord c) rest s
  have hbehind : (l.step c (s ++ rest).head?).2.run s rest.head? = l.run (c :: s) rest.head? := by
    rw [List.head?_append]
    rfl
  rw [hbehind] at hskip
  have hcode : (l.step c (s ++ rest).head?).1 = .code := (hl.step hc).1
  have hlength : (s ++ rest).length - rest.length = s.length := by
    rw [List.length_append, Nat.add_sub_cancel]
  have hreplacement : replacement d (c :: (s ++ rest)) rest =
      d.render ++ List.replicate (newlines (c :: s)) '\n' := by
    have htake : (c :: (s ++ rest)).take ((c :: (s ++ rest)).length - rest.length) = c :: s := by
      rw [← List.cons_append, List.length_append, Nat.add_sub_cancel, List.take_left]
    rw [replacement, htake]
  have hread : (if false = true then none else form.read? (c :: (s ++ rest))) = some (d, rest) :=
    hread
  refine ⟨word, ?_⟩
  rw [List.cons_append, passFrom, Lexer.glyphsFrom, List.map_cons,
    replaceFrom_of_some _ _ hread, if_pos hcode, hlength, hreplacement, ← hskip]
  rfl

/-! ## Lines -/

/-- A pass turns the line `s` into `t`, and goes on in code. -/
def Turns (form : Form) (s t : List Char) : Prop :=
  ∀ (l : Lexer) (rest : List Char), l.IsPlain →
    ∃ (next : Lexer) (word : Bool), next.IsPlain ∧
      passFrom form l false .nothing (s ++ rest) = t ++ passFrom form next word .nothing rest

section Lines

variable {form : Form} {s t : List Char}

theorem turns_of_quiet (hquiet : ∀ rest, Quiet form rest false s)
    (hlevel : ∀ (l : Lexer) (next : Option Char), l.IsPlain → (l.run s next).IsPlain) :
    Turns form s s := by
  intro l rest hl
  obtain ⟨word, hpass⟩ := passFrom_quiet (hquiet rest)
  exact ⟨l.run s rest.head?, word, hlevel l _ hl, hpass⟩

theorem turns_of_read {d : Declaration}
    (hread : ∀ rest, form.read? (s ++ rest) = some (d, rest))
    (hlevel : ∀ (l : Lexer) (next : Option Char), l.IsPlain → (l.run s next).IsPlain) :
    Turns form s (d.render ++ List.replicate (newlines s) '\n') := by
  have hs : s ≠ [] := by
    rintro rfl
    obtain ⟨u, hu, -⟩ := Form.read?_suffix (hread [])
    rcases form.opening_eq with e | e <;> rw [e] at hu <;> cases hu
  intro l rest hl
  obtain ⟨word, hpass⟩ := passFrom_of_read hl (hread rest) hs
  exact ⟨l.run s rest.head?, word, hlevel l _ hl, hpass⟩

/-- A line end between two lines. -/
theorem passFrom_newline {l : Lexer} (hl : l.IsPlain) (word : Bool) (s : List Char) :
    ∃ next : Lexer, next.IsPlain ∧
      passFrom form l word .nothing ('\n' :: s) = '\n' :: passFrom form next false .nothing s := by
  refine ⟨(l.step '\n' s.head?).2, (hl.step (by decide)).2, ?_⟩
  exact passFrom_cons fun _ => read?_eq_none_of_head (by decide) s

/-- A pass turns every line by itself. -/
theorem passFrom_lines {ss ts : List (List Char)} (h : List.Forall₂ (Turns form) ss ts) {l : Lexer}
    (hl : l.IsPlain) :
    passFrom form l false .nothing (List.intercalate ['\n'] ss) = List.intercalate ['\n'] ts := by
  induction h generalizing l with
  | nil => rfl
  | @cons s t ss ts hst hrest ih =>
    cases hrest with
    | nil =>
      obtain ⟨next, word, -, hpass⟩ := hst l [] hl
      rw [List.append_nil, passFrom_nil, List.append_nil] at hpass
      simpa [List.intercalate] using hpass
    | @cons s' t' ss ts hst' hrest =>
      obtain ⟨next, word, hnext, hpass⟩ := hst l ('\n' :: List.intercalate ['\n'] (s' :: ss)) hl
      obtain ⟨next, hnext, hnewline⟩ := passFrom_newline hnext word _
      have hlines (u v : List Char) (us : List (List Char)) :
          List.intercalate ['\n'] (u :: v :: us) =
            u ++ '\n' :: List.intercalate ['\n'] (v :: us) := by
        rw [List.intercalate, List.intersperse_cons_cons, List.flatten_cons, List.flatten_cons]
        rfl
      rw [hlines, hpass, hnewline, ih hnext, hlines]

theorem replaceForm_lines {ss ts : List (List Char)} (h : List.Forall₂ (Turns form) ss ts) :
    replaceForm (List.intercalate ['\n'] ss) form = List.intercalate ['\n'] ts :=
  passFrom_lines h Lexer.isPlain_initial

end Lines

/-! ## Declarations -/

namespace Written

theorem bracedList?_eq_none {c : Char} (hc : c ≠ '{') (s : List Char) :
    bracedList? (c :: s) = none := by
  cases hread : bracedList? (c :: s) with
  | none => rfl
  | some read => exact absurd (by simpa using head?_of_bracedList? hread) hc

/-- Imports that begin with a name are told apart by what stands behind the name and a comma. -/
theorem read?_named_eq_none (beforeName : Gap) (name : Name) (beforeComma afterComma : Blanks)
    {form : Form} (hopening : form.opening = "import".toList) {c : Char} {s : List Char}
    (htrim : trimStart (c :: s) = c :: s)
    (hwhole : form = .importDefaultAndWhole → wholeModule? (c :: s) = none)
    (hnamed : form = .importDefaultAndNamed → c ≠ '{') :
    form.read? ("import".toList ++ (beforeName.text ++ (name.text ++ (beforeComma.text ++ ',' ::
      (afterComma.text ++ c :: s))))) = none := by
  have hname := defaultName?_append beforeName name beforeComma afterComma htrim
  cases form
  case importDefaultAndWhole =>
    simp only [Form.read?, dropStart?_append, Option.bind_eq_bind, Option.bind_some, hname,
      hwhole rfl, Option.bind_none]
  case importDefaultAndNamed =>
    simp only [Form.read?, dropStart?_append, Option.bind_eq_bind, Option.bind_some, hname,
      bracedList?_eq_none (hnamed rfl), Option.bind_none]
  case importDefault =>
    refine importDefault_read?_eq_none beforeName name
      (closes_listed beforeComma (by decide) _).stops ?_
    rw [beforeComma.trimStart_append]
    rfl
  case importWhole | importNamed | importBare =>
    exact read?_eq_none_of_not_isWordy beforeName name rfl _
  all_goals exact absurd hopening (by decide)

/-- Behind the first word, only its own form reads a declaration, but for the last, which reads any
list of exports. -/
theorem read?_clause_eq_none {w : Written} {form : Form} (hopening : form.opening = w.form.opening)
    (hform : form ≠ w.form) (hlast : form ≠ .exportNames) (rest : List Char) :
    form.read? (form.opening ++ (w.clause ++ rest)) = none := by
  have hnames : w.form ≠ .exportNames := fun h => by cases w <;> cases h
  -- a mark tells the forms with one first word apart
  have hmark {c : Char} {s : List Char} (htrim : trimStart (w.clause ++ rest) = c :: s)
      (hwordy : w.form.isWordy = false) (hc : w.form.leads c = true) :
      form.read? (form.opening ++ (w.clause ++ rest)) = none :=
    read?_eq_none_of_leads htrim (Form.leads_eq_false hwordy hc hopening hform hlast hnames)
  cases w with
  | importDefaultAndWhole beforeName name beforeComma afterComma afterStar afterAs whole beforeFrom
      origin =>
    rw [hopening]
    simp only [clause, List.append_assoc, List.cons_append]
    exact read?_named_eq_none beforeName name beforeComma afterComma hopening rfl
      (fun h => absurd h hform) fun _ => by decide
  | importDefaultAndNamed beforeName name beforeComma afterComma named beforeFrom origin =>
    rw [hopening]
    simp only [clause, List.append_assoc, List.cons_append]
    exact read?_named_eq_none beforeName name beforeComma afterComma hopening rfl (fun _ => rfl)
      fun h => absurd h hform
  | importWhole beforeStar afterStar afterAs whole beforeFrom origin =>
    simp only [clause, List.append_assoc, List.cons_append] at hmark ⊢
    exact hmark (beforeStar.trimStart_append _) rfl rfl
  | importNamed before named beforeFrom origin =>
    simp only [clause, List.append_assoc, List.cons_append] at hmark ⊢
    exact hmark (before.trimStart_append _) rfl rfl
  | importDefault beforeName name beforeFrom origin =>
    simp only [clause, List.append_assoc]
    have hstop := beforeFrom.head?_all_append (fun _ => not_isIdentifierPart_of_isBlank)
      ("from".toList ++ (origin.text ++ rest))
    have hname := defaultName?_eq_none beforeName name hstop (beforeFrom.trimStart_append _)
      (by decide)
    have hopening : form.opening = "import".toList := hopening
    cases form
    case importDefaultAndWhole | importDefaultAndNamed =>
      dsimp only [Form.opening]
      simp only [Form.read?, dropStart?_append, Option.bind_eq_bind, Option.bind_some, hname,
        Option.bind_none]
    case importDefault => exact absurd rfl hform
    case importWhole | importNamed | importBare =>
      exact read?_eq_none_of_not_isWordy beforeName name rfl _
    all_goals exact absurd hopening (by decide)
  | importBare origin => exact hmark (origin.trimStart_append rest) rfl origin.quotes
  | exportNamedFrom before named beforeFrom origin =>
    simp only [clause, List.append_assoc, List.cons_append] at hmark ⊢
    exact hmark (before.trimStart_append _) rfl rfl
  | exportAllFrom beforeStar beforeFrom origin =>
    simp only [clause, List.append_assoc, List.cons_append] at hmark ⊢
    exact hmark (beforeStar.trimStart_append _) rfl rfl

theorem level_text (w : Written) (l : Lexer) (next : Option Char) (hl : l.IsPlain) :
    (l.run w.text next).IsPlain := by
  have hopening : w.form.opening.all Lexer.isPlainChar = true := by
    rcases w.form.opening_eq with h | h <;> rw [h] <;> decide
  rw [text, Lexer.run_append]
  exact w.calm_clause.level _ next (hl.run hopening _)

/-- What a declaration is turned into, with its line ends. -/
def translated (w : Written) : List Char :=
  w.translation ++ List.replicate (newlines w.text) '\n'

/-- The pass of its form translates a declaration. -/
theorem turns_text (w : Written) : Turns w.form w.text w.translated := by
  have hturns := turns_of_read w.read?_text w.level_text
  rwa [w.render_declaration] at hturns

/-- An earlier pass leaves it. -/
theorem turns_later {w : Written} {form : Form} (hform : form ≠ w.form)
    (hlast : form ≠ .exportNames) : Turns form w.text w.text := by
  refine turns_of_quiet (fun rest => ?_) w.level_text
  rw [text]
  refine (quiet_word (w.form.letters_opening) ?_).append (w.calm_clause.quiet form rest)
  by_cases hopening : form.opening = w.form.opening
  · rw [← hopening]
    exact read?_clause_eq_none hopening hform hlast rest
  · exact read?_opening_eq_none hopening _

/-- Every pass leaves the translation. -/
theorem turns_translated (w : Written) (form : Form) : Turns form w.translated w.translated := by
  have hblank : ∀ c ∈ List.replicate (newlines w.text) '\n', isBlank c = true := by
    intro c hc
    rw [List.eq_of_mem_replicate hc]
    decide
  have hlines : Calm (List.replicate (newlines w.text) '\n') := by
    have h := Calm.nil.blanks ⟨List.replicate (newlines w.text) '\n', hblank⟩
    rwa [List.append_nil] at h
  have hcalm := w.calm_translation hlines
  exact turns_of_quiet (hcalm.quiet form) hcalm.level

/-! ## All passes -/

/-- The line of a declaration after the passes over the forms. -/
def after (passes : List Form) (w : Written) : List Char :=
  if w.form ∈ passes then w.translated else w.text

theorem turns_after {passes later : List Form} {form : Form}
    (hall : passes ++ form :: later = Form.all) (w : Written) :
    Turns form (w.after passes) (w.after (passes ++ [form])) := by
  unfold after
  by_cases hpast : w.form ∈ passes
  · rw [if_pos hpast, if_pos (List.mem_append_left _ hpast)]
    exact w.turns_translated form
  · rw [if_neg hpast]
    by_cases hnow : w.form = form
    · rw [if_pos (by simp [hnow]), ← hnow]
      exact w.turns_text
    · rw [if_neg (by simp [hpast, hnow])]
      have hlater : w.form ∈ later := by
        have hmem : w.form ∈ passes ++ form :: later := hall ▸ Form.mem_all w.form
        simpa [hpast, hnow] using hmem
      -- another form comes behind this one, so it is not the last
      have hpairs : Form.all.Pairwise fun f _ => f ≠ .exportNames := by decide
      rw [← hall, List.pairwise_append, List.pairwise_cons] at hpairs
      exact turns_later (Ne.symm hnow) (hpairs.2.1.1 _ hlater)

theorem foldl_after {passes forms : List Form} (hall : passes ++ forms = Form.all)
    (ws : List Written) :
    forms.foldl replaceForm (List.intercalate ['\n'] (ws.map (after passes))) =
      List.intercalate ['\n'] (ws.map (after Form.all)) := by
  induction forms generalizing passes with
  | nil => rw [← hall, List.append_nil, List.foldl_nil]
  | cons form forms ih =>
    have hturns : List.Forall₂ (Turns form) (ws.map (after passes))
        (ws.map (after (passes ++ [form]))) := by
      rw [List.forall₂_map_left_iff, List.forall₂_map_right_iff, List.forall₂_same]
      exact fun w _ => turns_after hall w
    rw [List.foldl_cons, replaceForm_lines hturns]
    exact ih (by rw [List.append_assoc, List.singleton_append, hall])

end Written

/-- Declarations on lines of their own are translated one by one, each with as many line ends behind
its translation as it contains. -/
theorem normalize_declarations (ws : List Written) :
    normalize (List.intercalate ['\n'] (ws.map Written.text)) =
      List.intercalate ['\n'] (ws.map fun w =>
        w.translation ++ List.replicate (newlines w.text) '\n') := by
  have hfold := Written.foldl_after (show [] ++ Form.all = Form.all from rfl) ws
  have hbefore : Written.after [] = Written.text := rfl
  have hafter : Written.after Form.all = Written.translated :=
    funext fun w => if_pos (Form.mem_all w.form)
  rw [hbefore, hafter] at hfold
  exact hfold

/-- A line end within a declaration is kept behind its translation. -/
example :
    normalize "import \x7ba as b,\nc\x7d from 'm';\nexport * from 'n';".toList =
      ("const \x7b a: b, c \x7d = require('m');\n\n"
        ++ "Object.assign(module.exports, require('n'));").toList := by
  decide +kernel

end SnippetRunner.Script
