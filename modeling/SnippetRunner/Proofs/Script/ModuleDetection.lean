import SnippetRunner.Proofs.Script.LineCount
import SnippetRunner.Proofs.Script.References
import SnippetRunner.Run.Execution

/-
  What is rewritten is detected. A script in whose code no declaration of a module begins stays
  as it is; so does one in whose code neither of the words begins that open a declaration
  (`normalize_of_wordless`), whatever its strings, templates and comments spell. One whose
  declarations all stand at the head of a line or behind a semicolon is detected from its own text.
  A declaration that stands aside, behind a comment or a brace, is rewritten all the same but not
  detected: then the isolated backend is given a script that loads modules.
-/
namespace SnippetRunner.Script

open SnippetRunner.Text SnippetRunner.Source

/-- A declaration of this form begins at the head of `text`. -/
def declares (form : Form) (before text : List Char) : Bool :=
  wordBegins before && (form.read? text).isSome

/-- A declaration begins at the head of `text`, but no line and no statement does. -/
def declaresAside (before text : List Char) : Bool :=
  !isDeclarationHead before && Form.all.any fun form => declares form before text

/-! ## Texts without declarations -/

section

variable {form : Form} {before text : List Char} {regions : List Region} {ahead : Ahead}

/-- Where no declaration of a form begins in code, nothing is replaced. -/
theorem replaceFrom_eq_self (h : anyInCode (declares form) before text regions = false)
    (hahead : ∀ n, ahead ≠ .replaced n) :
    replaceFrom form (before.head?.any isWord) ahead text regions = text := by
  induction text generalizing before regions ahead with
  | nil => rfl
  | cons c text ih =>
    cases regions with
    | nil => rfl
    | cons region regions =>
      rw [anyInCode, Bool.or_eq_false_iff] at h
      obtain ⟨hhead, htail⟩ := h
      have hrest : ∀ ahead, (∀ n, ahead ≠ .replaced n) →
          replaceFrom form (isWord c) ahead text regions = text := fun _ => ih htail
      have hnothing : replaceFrom form (before.head?.any isWord) .nothing (c :: text)
          (region :: regions) = c :: text := by
        cases hread : if before.head?.any isWord then none else form.read? (c :: text) with
        | none => rw [replaceFrom_of_none hread, hrest _ (by simp)]
        | some read =>
          obtain ⟨d, rest⟩ := read
          rw [replaceFrom_of_some region regions hread]
          split at hread
          · cases hread
          · next hword =>
            have hcode : region ≠ .code := by
              rintro rfl
              simp [declares, wordBegins, wordEnds, hword, hread] at hhead
            rw [if_neg hcode, hrest _ (by simp)]
      cases ahead with
      | nothing => exact hnothing
      | kept n =>
        cases n with
        | zero => exact hnothing
        | succ n => rw [replaceFrom, hrest _ (by simp)]
      | replaced n => exact absurd rfl (hahead n)

end

theorem foldl_replaceForm_eq_self {source : List Char} {forms : List Form}
    (h : ∀ form ∈ forms, occursInCode (declares form) source = false) :
    forms.foldl replaceForm source = source := by
  induction forms with
  | nil => rfl
  | cons form forms ih =>
    have hnone : anyInCode (declares form) [] source (regions source) = false :=
      h form (List.mem_cons_self ..)
    have hform : replaceForm source form = source := replaceFrom_eq_self hnone nofun
    rw [List.foldl_cons, hform]
    exact ih fun f hf => h f (List.mem_cons_of_mem _ hf)

/-- A script in whose code no declaration begins stays as it is. -/
theorem normalize_eq_self {source : List Char}
    (h : ∀ form ∈ Form.all, occursInCode (declares form) source = false) :
    normalize source = source :=
  foldl_replaceForm_eq_self h

/-- A declaration in the code opens with a whole word of the code. -/
theorem occurs_of_declares {form : Form} {source : List Char}
    (h : occursInCode (declares form) source = true) :
    ∃ keyword ∈ declarationKeywords, ∃ before after, Occurs isWord source before keyword after := by
  obtain ⟨before, text, hsource, hne, hcode, hdeclares⟩ := anyInCode_eq_true_iff.mp h
  rw [List.append_nil, declares, Bool.and_eq_true, wordBegins_reverse, Bool.not_eq_true',
    Option.isSome_iff_exists] at hdeclares
  obtain ⟨hbegins, ⟨d, rest⟩, hread⟩ := hdeclares
  obtain ⟨after, hafter, hends⟩ := Form.wordEnds_of_read? hread
  obtain rfl := dropStart?_eq_some_iff.mp hafter
  rw [wordEnds, Bool.not_eq_true'] at hends
  refine ⟨form.opening, ?_, before, after, hsource, hcode, hbegins, hends⟩
  rcases form.opening_eq with e | e <;> rw [e] <;> decide

/-- A script in whose code neither of the words begins that open a declaration is left as it is.
Declarations may be found in it all the same, but they begin in a string, a template or a comment;
how far they run on into the code does not matter. -/
theorem normalize_of_wordless (source : List Char)
    (h : ∀ keyword ∈ declarationKeywords, ∀ before after,
      ¬Occurs isWord source before keyword after) :
    normalize source = source ∧
      ∀ form before text, source = before ++ text → declares form before.reverse text = true →
        (regions source)[before.length]? ≠ some .code := by
  have hnone (form : Form) : occursInCode (declares form) source = false := by
    by_contra hdeclares
    obtain ⟨keyword, hkeyword, before, after, hoccurs⟩ :=
      occurs_of_declares (Bool.not_eq_false _ ▸ hdeclares)
    exact h keyword hkeyword before after hoccurs
  refine ⟨normalize_eq_self fun form _ => hnone form, ?_⟩
  intro form before text hsource hread hcode
  have hfound : occursInCode (declares form) source = true := by
    refine anyInCode_eq_true_iff.mpr ⟨before, text, hsource, ?_, hcode, ?_⟩
    · rintro rfl
      rw [List.append_nil] at hsource
      rw [← hsource, List.getElem?_eq_none (length_regions source).le] at hcode
      cases hcode
    · rwa [List.append_nil]
  rw [hnone form] at hfound
  cases hfound

/-- A script in which an import is found from a string over the code up to the next one, and a list
of exports from a comment up to a brace of the code behind it. -/
def scriptOfFalseMatches : List Char :=
  "kind = \"import\" + \"ed\"; // export \x7b\nf(\x7b kind \x7d);".toList

theorem normalize_of_wordless_running_on :
    (∀ keyword ∈ declarationKeywords, ∀ before after,
        ¬Occurs isWord scriptOfFalseMatches before keyword after) ∧
      Form.importBare.read? (scriptOfFalseMatches.drop 8) =
        some (.importBare " + ".toList, scriptOfFalseMatches.drop 19) ∧
      Form.exportNames.read? (scriptOfFalseMatches.drop 27) =
        some (.exportNames, ");".toList) ∧
      normalize scriptOfFalseMatches = scriptOfFalseMatches := by
  have hwordless : ∀ keyword ∈ declarationKeywords, ∀ before after,
      ¬Occurs isWord scriptOfFalseMatches before keyword after := by
    intro keyword hkeyword before after hoccurs
    have hfound := (occursInCode_iff_occurs (fun _ => true)
      (p := fun before text => (afterWord? keyword before text).isSome)
      (by rintro rfl; exact absurd hkeyword (by decide)) fun _ _ => rfl).mpr
        ⟨before, after, hoccurs, rfl⟩
    clear hoccurs
    revert keyword
    decide +kernel
  refine ⟨hwordless, by decide +kernel, by decide +kernel, ?_⟩
  exact (normalize_of_wordless _ hwordless).1

/-! ## Detection -/

/-- At the head of a line or behind a semicolon a declaration is detected. -/
theorem isModuleDeclaration_of_declares {form : Form} {before text : List Char}
    (hhead : isDeclarationHead before = true) (h : declares form before text = true) :
    isModuleDeclaration before text = true := by
  rw [declares, Bool.and_eq_true, Option.isSome_iff_exists] at h
  obtain ⟨hbegins, ⟨d, rest⟩, hread⟩ := h
  obtain ⟨s₁, hdrop, hends⟩ := Form.wordEnds_of_read? hread
  have hword : (afterWord? form.opening before text).isSome = true := by
    rw [afterWord?, if_pos hbegins, hdrop, Option.filter_some_pos hends]
    rfl
  rw [isModuleDeclaration, hhead, Bool.true_and, Bool.or_eq_true]
  rcases form.opening_eq with e | e
  · exact Or.inl (e ▸ hword)
  · exact Or.inr (e ▸ hword)

/-- What a script declares in its code is detected, or stands aside. -/
theorem usesModules_of_declares {form : Form} {script : List Char}
    (h : occursInCode (declares form) script = true) :
    usesModules script = true ∨ occursInCode declaresAside script = true := by
  obtain ⟨a, b, hsplit, hb, hregion, hdeclares⟩ := anyInCode_eq_true_iff.mp h
  cases hhead : isDeclarationHead (a.reverse ++ []) with
  | true =>
    left
    rw [usesModules, Bool.or_eq_true]
    exact Or.inl (anyInCode_eq_true_iff.mpr
      ⟨a, b, hsplit, hb, hregion, isModuleDeclaration_of_declares hhead hdeclares⟩)
  | false =>
    right
    refine anyInCode_eq_true_iff.mpr ⟨a, b, hsplit, hb, hregion, ?_⟩
    rw [declaresAside, hhead, Bool.not_false, Bool.true_and]
    exact List.any_eq_true.mpr ⟨form, by cases form <;> decide, hdeclares⟩

/-- A script that is rewritten is detected, or declares aside. -/
theorem normalize_eq_self_or (script : List Char) :
    normalize script = script ∨ usesModules script = true ∨
      occursInCode declaresAside script = true := by
  by_cases h : ∀ form ∈ Form.all, occursInCode (declares form) script = false
  · exact Or.inl (normalize_eq_self h)
  · push Not at h
    obtain ⟨form, -, hform⟩ := h
    exact Or.inr (usesModules_of_declares (by simpa using hform))

/-- The isolated backend is given no script that is seen to load modules. -/
theorem usesModules_of_selection {host : Host} {script : List Char}
    (h : (host.selection script).backend = .isolated) : usesModules script = false := by
  cases huses : usesModules script with
  | false => rfl
  | true =>
    have hrequired : (Capability.required script).contains .modules = true := by
      simp [Capability.required, Capability.all, Capability.isRequired, huses]
    unfold Host.selection selectBackend at h
    simp only [hrequired, isolatedProfile, Bool.not_false, Bool.and_true, if_true] at h
    split_ifs at h <;> cases h

/-- Detection agrees with the rewrite unless a declaration stands aside: a script that is
rewritten is one that uses modules, so is one that uses them once it is rewritten, and what the
isolated backend is given uses none in its rewritten form either. -/
theorem usesModules_agrees_with_normalize (script : List Char) :
    occursInCode declaresAside script = true ∨
      (normalize script ≠ script → usesModules script = true) ∧
      (usesModules (normalize script) = true → usesModules script = true) ∧
      ∀ host : Host, (host.selection script).backend = .isolated →
        usesModules (normalize script) = false := by
  rcases normalize_eq_self_or script with hself | huses | haside
  · refine Or.inr ⟨fun hne => absurd hself hne, fun h => hself ▸ h, fun host h => ?_⟩
    rw [hself]
    exact usesModules_of_selection h
  · refine Or.inr ⟨fun _ => huses, fun _ => huses, fun host h => ?_⟩
    rw [usesModules_of_selection h] at huses
    cases huses
  · exact Or.inl haside

/-- An import behind a comment is rewritten into a call that loads a module, and missed. -/
theorem import_behind_comment_missed :
    normalize "/* polyfill */ import './polyfill';".toList
        = "/* polyfill */ require('./polyfill');".toList ∧
      usesModules "/* polyfill */ require('./polyfill');".toList = true ∧
      usesModules "/* polyfill */ import './polyfill';".toList = false := by
  decide +kernel

end SnippetRunner.Script
