import SnippetRunner.Proofs.Script.FirstWord
import SnippetRunner.Proofs.Script.Written

/-
  What can stand behind the first word of a declaration. Most words do not open a declaration, but
  the name of a binding may end with one that does, as in `$import`. A text is `Inert` if no
  declaration goes on with it behind its first word, and so is what stands behind a name: a mark
  (`closes_mark`), `from` and a module (`closes_from`), or `as` and another name (`closes_as`).
-/
namespace SnippetRunner.Script

open SnippetRunner.Text SnippetRunner.Source Written

section Wordy

variable (gap : Gap) (n : Name) {s t : List Char} {c : Char}

theorem defaultName?_eq_none (hstop : s.head?.all isIdentifierPart = false)
    (htrim : trimStart s = c :: t) (hc : c ≠ ',') :
    defaultName? (gap.text ++ (n.text ++ s)) = none := by
  have hcomma : dropStart? ",".toList (c :: t) = none := if_neg (Ne.symm hc)
  rw [defaultName?, gap.someBlanks?_append (n.head?_all_isBlank s)]
  simp only [Option.bind_eq_bind, Option.bind_some, n.identifier?_append hstop, htrim, hcomma,
    Option.bind_none]

theorem importDefault_read?_eq_none (hstop : s.head?.all isIdentifierPart = false)
    (hfrom : fromModule? (trimStart s) = none) :
    Form.importDefault.read? (Form.importDefault.opening ++ (gap.text ++ (n.text ++ s))) =
      none := by
  dsimp only [Form.opening]
  simp only [Form.read?, dropStart?_append, Option.bind_eq_bind, Option.bind_some,
    gap.someBlanks?_append (n.head?_all_isBlank s), n.identifier?_append hstop]
  cases hblanks : someBlanks? s with
  | none => rfl
  | some u =>
    obtain ⟨rfl, -⟩ := someBlanks?_eq_trimStart hblanks
    rw [Option.bind_some, hfrom]
    rfl

theorem head?_trimStart_append {m : List Char} (hm : ∀ d ∈ m, isIdentifierPart d = true)
    (htrim : trimStart s = c :: t) (hc : isQuote c = false) :
    (trimStart (m ++ s)).head?.any isQuote = false := by
  cases m with
  | nil =>
    rw [List.nil_append, htrim]
    exact hc
  | cons d m =>
    have hd := hm d (List.mem_cons_self ..)
    have hquote : isQuote d = false := by
      rw [← Bool.not_eq_true]
      intro hquote
      simp only [isQuote, Bool.or_eq_true, decide_eq_true_eq] at hquote
      rcases hquote with rfl | rfl <;> exact absurd hd (by decide)
    have htrim : trimStart (d :: m ++ s) = d :: m ++ s :=
      List.dropWhile_cons_of_neg (by simp [not_isBlank_of_isIdentifierPart hd])
    rw [htrim]
    exact hquote

/-- A name is not the word before a module. -/
theorem fromModule?_eq_none {word : List Char} (hword : ∀ d ∈ word, isIdentifierPart d = true)
    (hstop : s.head?.all isIdentifierPart = false) (htrim : trimStart s = c :: t)
    (hc : isQuote c = false) : fromModule? (word ++ s) = none := by
  cases hread : fromModule? (word ++ s) with
  | none => rfl
  | some read =>
    simp only [fromModule?, Option.bind_eq_bind, Option.bind_eq_some_iff, Prod.exists] at hread
    obtain ⟨u, hu, _, _, hmodule, -⟩ := hread
    have hquote := head?_of_moduleName? hmodule
    have hbehind : ∃ m, u = m ++ s ∧ ∀ d ∈ m, isIdentifierPart d = true := by
      rcases List.append_eq_append_iff.mp (dropStart?_eq_some_iff.mp hu) with
        ⟨m, hfrom, hs⟩ | ⟨m, hn, hu⟩
      · cases m with
        | nil => exact ⟨[], hs.symm, fun _ hd => absurd hd List.not_mem_nil⟩
        | cons d m =>
          have hletters : "from".toList.all isIdentifierPart = true := by decide
          have hd := List.all_eq_true.mp hletters d (by rw [hfrom]; simp)
          rw [hs, List.cons_append, List.head?_cons, Option.all_some, hd] at hstop
          cases hstop
      · exact ⟨m, hu, fun d hd => hword d (by rw [hn]; exact List.mem_append_right _ hd)⟩
    obtain ⟨m, rfl, hm⟩ := hbehind
    rw [head?_trimStart_append hm htrim hc] at hquote
    cases hquote

theorem read?_eq_none_of_not_isWordy {form : Form} (hform : form.isWordy = false) (s : List Char) :
    form.read? (form.opening ++ (gap.text ++ (n.text ++ s))) = none := by
  obtain ⟨d, text, htext⟩ := List.exists_cons_of_ne_nil n.nonempty
  have hstart : isIdentifierStart d = true := by
    have hstarts := n.starts
    rwa [htext] at hstarts
  have htrim : trimStart (gap.text ++ (n.text ++ s)) = d :: (text ++ s) := by
    rw [gap.trimStart_append, n.trimStart_append, htext, List.cons_append]
  refine read?_eq_none_of_leads htrim ?_
  rw [← Bool.not_eq_true]
  intro hleads
  cases form <;>
    simp only [Form.leads, isQuote, Bool.or_eq_true, decide_eq_true_eq] at hleads
  case importBare => rcases hleads with rfl | rfl <;> exact absurd hstart (by decide)
  case importWhole | importNamed | exportNamedFrom | exportAllFrom | exportNames =>
    subst hleads
    exact absurd hstart (by decide)
  all_goals cases hform

/-- Behind the first word stands a name that is none of a declaration's words, and behind it
neither a comma nor a module. -/
theorem read?_eq_none_of_name (form : Form) (hstop : s.head?.all isIdentifierPart = false)
    (htrim : trimStart s = c :: t) (hc : c ≠ ',') (hfrom : fromModule? (trimStart s) = none)
    (hdefault : dropStart? "default".toList (n.text ++ s) = none)
    (hkeyword : bindingKeyword? (n.text ++ s) = none) :
    form.read? (form.opening ++ (gap.text ++ (n.text ++ s))) = none := by
  have hblanks := gap.someBlanks?_append (n.head?_all_isBlank s)
  cases form with
  | importDefaultAndWhole | importDefaultAndNamed =>
    dsimp only [Form.opening]
    simp only [Form.read?, dropStart?_append, Option.bind_eq_bind, Option.bind_some,
      defaultName?_eq_none gap n hstop htrim hc, Option.bind_none]
  | importDefault => exact importDefault_read?_eq_none gap n hstop hfrom
  | exportDefault =>
    dsimp only [Form.opening]
    simp only [Form.read?, dropStart?_append, Option.bind_eq_bind, Option.bind_some, hblanks,
      hdefault, Option.bind_none]
  | exportBinding =>
    dsimp only [Form.opening]
    simp only [Form.read?, dropStart?_append, Option.bind_eq_bind, Option.bind_some, hblanks,
      hkeyword, Option.bind_none]
  | importWhole | importNamed | importBare | exportNamedFrom | exportAllFrom | exportNames =>
    exact read?_eq_none_of_not_isWordy gap n rfl s

end Wordy

/-! ## What goes on with no declaration -/

/-- Behind the word that opens a declaration, `s` goes on with none, whatever follows it. -/
def Inert (s : List Char) : Prop :=
  ∀ (form : Form) (rest : List Char), form.read? (form.opening ++ (s ++ rest)) = none

section Inert

variable {s t : List Char} {c : Char}

theorem trimStart_append_of_cons (h : trimStart s = c :: t) (rest : List Char) :
    trimStart (s ++ rest) = c :: (t ++ rest) := by
  unfold trimStart at h ⊢
  rw [List.dropWhile_append, h, if_neg (by simp), List.cons_append]

theorem head?_append_of_trimStart (h : trimStart s = c :: t) (rest : List Char) :
    (s ++ rest).head? = s.head? := by
  cases s with
  | nil => cases h
  | cons d s => rfl

/-- Behind the blanks is something that no declaration has there. -/
theorem inert_of_leads (hs : trimStart s = c :: t)
    (hc : ∀ form : Form, form.leads c = false ∨
      form.isWordy = true ∧ s.head?.any isBlank = false) : Inert s := by
  intro form rest
  rcases hc form with hleads | ⟨hform, hblank⟩
  · exact read?_eq_none_of_leads (trimStart_append_of_cons hs rest) hleads
  · exact read?_eq_none_of_isWordy hform (by rwa [head?_append_of_trimStart hs])

theorem inert_dollar (s : List Char) : Inert ('$' :: s) := by
  have hdollar (form : Form) : form.leads '$' = false ∨ form.isWordy = true := by
    cases form <;> decide
  exact inert_of_leads rfl fun form => (hdollar form).imp_right fun h => ⟨h, rfl⟩

def fromName : Name := ⟨"from".toList, rfl, List.all_eq_true.mp (by decide)⟩

def asName : Name := ⟨"as".toList, rfl, List.all_eq_true.mp (by decide)⟩

/-! ## What stands behind a name -/

/-- What ends a name and is inert, for the name may end with the first word of a declaration. -/
structure Closes (s : List Char) : Prop where
  stops : s.head?.all isIdentifierPart = false
  inert : Inert s

theorem closes_mark (hs : trimStart s = c :: t) (hc : c ∈ [',', '}', '=', ':', ')', ';', '/'])
    (hstop : s.head?.all isIdentifierPart = false) : Closes s := by
  refine ⟨hstop, inert_of_leads hs fun form => .inl ?_⟩
  simp only [List.mem_cons, List.not_mem_nil, or_false] at hc
  rcases hc with rfl | rfl | rfl | rfl | rfl | rfl | rfl <;> cases form <;> decide

/-- A comma or a brace stands behind a name in a list. -/
theorem closes_listed (after : Blanks) (hc : c ∈ [',', '}']) (s : List Char) :
    Closes (after.text ++ c :: s) := by
  simp only [List.mem_cons, List.not_mem_nil, or_false] at hc
  rcases hc with rfl | rfl
  · exact closes_mark (after.trimStart_append _) (by decide)
      (after.head?_all_append (fun _ => not_isIdentifierPart_of_isBlank) rfl)
  · exact closes_mark (after.trimStart_append _) (by decide)
      (after.head?_all_append (fun _ => not_isIdentifierPart_of_isBlank) rfl)

/-- Behind the first name of an entry stands the other one, and no module behind that. -/
theorem closes_as_of_stops (beforeAs afterAs : Gap) {word : List Char} (hne : word ≠ [])
    (hword : ∀ d ∈ word, isIdentifierPart d = true)
    (hstop : s.head?.all isIdentifierPart = false) (htrim : trimStart s = c :: t)
    (hc : isQuote c = false) :
    Closes (beforeAs.text ++ ("as".toList ++ (afterAs.text ++ (word ++ s)))) := by
  refine ⟨beforeAs.head?_all_append (fun _ => not_isIdentifierPart_of_isBlank) _,
    fun form rest => ?_⟩
  have hstop : (s ++ rest).head?.all isIdentifierPart = false := by
    rwa [head?_append_of_trimStart htrim]
  obtain ⟨d, text, rfl⟩ := List.exists_cons_of_ne_nil hne
  have hd : isIdentifierPart d = true := hword d (List.mem_cons_self ..)
  have hname (u : List Char) : trimStart (afterAs.text ++ (d :: text ++ u)) = d :: text ++ u := by
    rw [afterAs.trimStart_append]
    exact List.dropWhile_cons_of_neg (by simp [not_isBlank_of_isIdentifierPart hd])
  have hfrom : fromModule? (d :: text ++ (s ++ rest)) = none :=
    fromModule?_eq_none hword hstop (trimStart_append_of_cons htrim rest) hc
  have hkeyword (u : List Char) : bindingKeyword? ("as".toList ++ (afterAs.text ++ u)) = none := by
    obtain ⟨e, blanks, hblanks⟩ := List.exists_cons_of_ne_nil afterAs.nonempty
    have he : e ≠ 'y' := by
      rintro rfl
      exact absurd (afterAs.blank 'y' (by rw [hblanks]; exact List.mem_cons_self ..)) (by decide)
    rw [hblanks]
    simp [bindingKeyword?, dropStart?, he.symm]
  simp only [List.append_assoc]
  refine read?_eq_none_of_name beforeAs asName form
    (afterAs.head?_all_append (fun _ => not_isIdentifierPart_of_isBlank) _) (hname _) ?_ ?_ rfl
    (hkeyword _)
  · rintro rfl
    exact absurd hd (by decide)
  · rw [hname, hfrom]

/-- Behind the first name of an entry stands the other one, and a comma or a brace. -/
theorem closes_as (beforeAs afterAs : Gap) (n : Name) (after : Blanks) (hc : c ∈ [',', '}'])
    (s : List Char) :
    Closes (beforeAs.text ++ ("as".toList ++ (afterAs.text ++ (n.text ++
      (after.text ++ c :: s))))) := by
  have htrim : trimStart (after.text ++ c :: s) = c :: s := by
    rw [after.trimStart_append]
    simp only [List.mem_cons, List.not_mem_nil, or_false] at hc
    rcases hc with rfl | rfl <;> rfl
  have hquote : isQuote c = false := by
    simp only [List.mem_cons, List.not_mem_nil, or_false] at hc
    rcases hc with rfl | rfl <;> decide
  exact closes_as_of_stops beforeAs afterAs n.nonempty n.parts (closes_listed after hc s).stops
    htrim hquote

/-- In front of a module stands a word that is no name, for the module is behind it. -/
theorem closes_from (gap : Gap) (o : Origin) : Closes (gap.text ++ ("from".toList ++ o.text)) := by
  refine ⟨gap.head?_all_append (fun _ => not_isIdentifierPart_of_isBlank) _, fun form rest => ?_⟩
  have hfrom : fromModule? (trimStart (o.text ++ rest)) = none := by
    have hdrop (u : List Char) : dropStart? "from".toList (o.quote :: u) = none :=
      if_neg (ne_of_test o.quotes (by decide)).symm
    rw [o.trimStart_append, fromModule?, hdrop]
    rfl
  rw [List.append_assoc, List.append_assoc]
  exact read?_eq_none_of_name gap fromName form (o.head?_all_append rest) (o.trimStart_append rest)
    (ne_of_test o.quotes (by decide)) hfrom rfl rfl

end Inert

end SnippetRunner.Script
