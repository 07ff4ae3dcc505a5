import SnippetRunner.Proofs.Script.Declarations
import SnippetRunner.Proofs.Text.Word

/-
  What stands behind the first word of a declaration: a mark, or a blank and another word
  (`head?_of_read?`). So the first word ends there (`Form.wordEnds_of_read?`), and a text that goes
  on otherwise is no declaration.
-/
namespace SnippetRunner.Script

open SnippetRunner.Text

namespace Form

/-- The characters with which a declaration of a form goes on behind its first word and blanks. -/
def leads : Form → Char → Bool
  | importDefaultAndWhole | importDefaultAndNamed | importDefault | exportDefault | exportBinding =>
    isIdentifierStart
  | importWhole | exportAllFrom => (· = '*')
  | importNamed | exportNamedFrom | exportNames => (· = '{')
  | importBare => isQuote

/-- A word stands there, so the first word ends with a blank. -/
def isWordy : Form → Bool
  | importDefaultAndWhole | importDefaultAndNamed | importDefault | exportDefault
  | exportBinding => true
  | importWhole | importNamed | importBare | exportNamedFrom | exportAllFrom | exportNames => false

theorem not_isWord_of_leads {form : Form} {c : Char} (hform : form.isWordy = false)
    (hc : form.leads c = true) : isWord c = false := by
  cases form <;> simp only [leads, isQuote, Bool.or_eq_true, decide_eq_true_eq] at hc
  case importWhole | importNamed | exportNamedFrom | exportAllFrom | exportNames =>
    rw [hc]
    decide
  case importBare =>
    rcases hc with rfl | rfl <;> decide
  all_goals cases hform

/-- Forms with one first word go on with different marks, but for the last form. -/
theorem leads_eq_false {f g : Form} {c : Char} (hg : g.isWordy = false) (hc : g.leads c = true)
    (hopening : f.opening = g.opening) (hne : f ≠ g) (hf : f ≠ .exportNames)
    (hlast : g ≠ .exportNames) : f.leads c = false := by
  suffices hall : ∀ f ∈ all, f.opening = g.opening → f ≠ g → f ≠ .exportNames →
      f.leads c = false from hall f f.mem_all hopening hne hf
  cases g
  case importWhole | importNamed | exportNamedFrom | exportAllFrom =>
    obtain rfl := of_decide_eq_true hc
    decide
  case importBare =>
    simp only [leads, isQuote, Bool.or_eq_true, decide_eq_true_eq] at hc
    rcases hc with rfl | rfl <;> decide
  case exportNames => exact absurd rfl hlast
  all_goals cases hg

end Form

/-! ## Reading behind the first word -/

theorem dropStart?_append {α : Type} [DecidableEq α] (start rest : List α) :
    dropStart? start (start ++ rest) = some rest :=
  dropStart?_eq_some_iff.mpr rfl

theorem head?_of_identifier? {s : List Char} {read : List Char × List Char}
    (h : identifier? s = some read) : s.head?.any isIdentifierStart = true := by
  unfold identifier? at h
  split at h
  · assumption
  · cases h

theorem head?_of_bracedList? {s : List Char} {read : List Specifier × List Char}
    (h : bracedList? s = some read) : s.head?.any (· = '{') = true := by
  unfold bracedList? at h
  split at h
  · cases h
  · dsimp only at h
    split at h
    · split at h
      · next hc => simpa using hc
      · cases h
    · cases h

theorem head?_of_moduleName? {s : List Char} {read : List Char × List Char}
    (h : moduleName? s = some read) : s.head?.any isQuote = true := by
  unfold moduleName? at h
  split at h
  · cases h
  · dsimp only at h
    split at h
    · split at h
      · next hc =>
        simp only [Bool.and_eq_true] at hc
        exact hc.1.1
      · cases h
    · cases h

theorem head?_of_star {s rest : List Char} (h : dropStart? "*".toList s = some rest) :
    s.head?.any (· = '*') = true := by
  rw [dropStart?_eq_some_iff.mp h]
  rfl

theorem head?_of_isBindingKeyword {keyword : List Char} (h : IsBindingKeyword keyword)
    (rest : List Char) : (keyword ++ rest).head?.any isIdentifierStart = true := by
  cases h with
  | plain listed =>
    simp only [List.map_cons, List.map_nil, List.mem_cons, List.not_mem_nil, or_false] at listed
    rcases listed with rfl | rfl | rfl | rfl | rfl <;> rfl
  | async _ _ => rfl

theorem someBlanks?_eq_trimStart {s t : List Char} (h : someBlanks? s = some t) :
    trimStart s = t ∧ s.head?.any isBlank = true := by
  unfold someBlanks? at h
  split at h
  · next hblank => exact ⟨Option.some.inj h, hblank⟩
  · cases h

theorem head?_of_read? {form : Form} {s : List Char} {read : Declaration × List Char}
    (h : form.read? (form.opening ++ s) = some read) :
    (trimStart s).head?.any form.leads = true ∧
      (form.isWordy = true → s.head?.any isBlank = true) := by
  have hwordy {t : List Char} (ht : someBlanks? s = some t)
      (hhead : t.head?.any isIdentifierStart = true) :
      (trimStart s).head?.any isIdentifierStart = true ∧
        (true = true → s.head?.any isBlank = true) := by
    obtain ⟨rfl, hblank⟩ := someBlanks?_eq_trimStart ht
    exact ⟨hhead, fun _ => hblank⟩
  have hmark (h : false = true) : s.head?.any isBlank = true := absurd h Bool.false_ne_true
  cases form <;> dsimp only [Form.opening] at h <;>
    simp only [Form.read?, dropStart?_append, defaultName?, wholeModule?, Option.bind_eq_bind,
      Option.bind_some, Option.bind_eq_some_iff, Prod.exists] at h
  case importDefaultAndWhole =>
    obtain ⟨_, _, ⟨t, ht, _, _, hname, -⟩, -⟩ := h
    exact hwordy ht (head?_of_identifier? hname)
  case importDefaultAndNamed =>
    obtain ⟨_, _, ⟨t, ht, _, _, hname, -⟩, -⟩ := h
    exact hwordy ht (head?_of_identifier? hname)
  case importWhole =>
    obtain ⟨_, _, ⟨_, hstar, -⟩, -⟩ := h
    exact ⟨head?_of_star hstar, hmark⟩
  case importNamed =>
    obtain ⟨_, _, hnamed, -⟩ := h
    exact ⟨head?_of_bracedList? hnamed, hmark⟩
  case importDefault =>
    obtain ⟨t, ht, _, _, hname, -⟩ := h
    exact hwordy ht (head?_of_identifier? hname)
  case importBare =>
    obtain ⟨_, _, hmodule, -⟩ := h
    exact ⟨head?_of_moduleName? hmodule, hmark⟩
  case exportDefault =>
    obtain ⟨t, ht, _, hdefault, -⟩ := h
    refine hwordy ht ?_
    rw [dropStart?_eq_some_iff.mp hdefault]
    rfl
  case exportBinding =>
    obtain ⟨t, ht, _, _, hread, -⟩ := h
    obtain ⟨hkeyword, rfl, -⟩ := bindingKeyword?_eq_some hread
    exact hwordy ht (head?_of_isBindingKeyword hkeyword _)
  case exportNamedFrom =>
    obtain ⟨_, _, hnamed, -⟩ := h
    exact ⟨head?_of_bracedList? hnamed, hmark⟩
  case exportAllFrom =>
    obtain ⟨_, hstar, -⟩ := h
    exact ⟨head?_of_star hstar, hmark⟩
  case exportNames =>
    obtain ⟨_, _, hnamed, -⟩ := h
    exact ⟨head?_of_bracedList? hnamed, hmark⟩

/-! ## The end of the first word -/

theorem wordEnds_of_head? {p : Char → Bool} (hp : ∀ c, p c = true → isWord c = false)
    {s : List Char} (h : s.head?.any p = true) : wordEnds s = true := by
  cases s with
  | nil => rfl
  | cons c s => simp [wordEnds, hp c h]

theorem wordEnds_of_trimStart {s : List Char} (h : wordEnds (trimStart s) = true) :
    wordEnds s = true := by
  cases s with
  | nil => rfl
  | cons c s =>
    cases hc : isBlank c with
    | true => simp [wordEnds, not_isWord_of_isBlank hc]
    | false =>
      rw [trimStart, List.dropWhile_cons_of_neg (by simp [hc])] at h
      exact h

/-- The word that opens a declaration ends where it does. -/
theorem Form.wordEnds_of_read? {form : Form} {s rest : List Char} {d : Declaration}
    (h : form.read? s = some (d, rest)) :
    ∃ s₁, dropStart? form.opening s = some s₁ ∧ wordEnds s₁ = true := by
  obtain ⟨s₁, rfl, -⟩ := read?_suffix h
  obtain ⟨hleads, hwordy⟩ := head?_of_read? h
  refine ⟨s₁, dropStart?_append _ _, ?_⟩
  cases hform : form.isWordy with
  | true => exact wordEnds_of_head? (fun _ => not_isWord_of_isBlank) (hwordy hform)
  | false =>
    exact wordEnds_of_trimStart (wordEnds_of_head? (fun _ => not_isWord_of_leads hform) hleads)

/-! ## Texts that are no declarations -/

theorem read?_eq_none_of_leads {form : Form} {s t : List Char} {c : Char}
    (hs : trimStart s = c :: t) (hc : form.leads c = false) :
    form.read? (form.opening ++ s) = none := by
  cases hread : form.read? (form.opening ++ s) with
  | none => rfl
  | some read =>
    have hhead := (head?_of_read? hread).1
    rw [hs, List.head?_cons, Option.any_some, hc] at hhead
    cases hhead

theorem read?_eq_none_of_isWordy {form : Form} {s : List Char} (hform : form.isWordy = true)
    (hs : s.head?.any isBlank = false) : form.read? (form.opening ++ s) = none := by
  cases hread : form.read? (form.opening ++ s) with
  | none => rfl
  | some read =>
    rw [(head?_of_read? hread).2 hform] at hs
    cases hs

/-- A declaration of another first word is none of this form. -/
theorem read?_opening_eq_none {form other : Form} (hother : form.opening ≠ other.opening)
    (s : List Char) : form.read? (other.opening ++ s) = none := by
  cases hread : form.read? (other.opening ++ s) with
  | none => rfl
  | some read =>
    obtain ⟨u, hu, -⟩ := Form.wordEnds_of_read? hread
    have happend := List.append_inj (dropStart?_eq_some_iff.mp hu)
      (by rw [Form.length_opening, Form.length_opening])
    exact absurd happend.1.symm hother

theorem read?_eq_none_of_head {form : Form} {c : Char} (hc : c ≠ 'i' ∧ c ≠ 'e') (s : List Char) :
    form.read? (c :: s) = none := by
  cases hread : form.read? (c :: s) with
  | none => rfl
  | some read =>
    obtain ⟨u, hu, -⟩ := Form.wordEnds_of_read? hread
    have hhead := congrArg List.head? (dropStart?_eq_some_iff.mp hu)
    rcases form.opening_eq with e | e <;> rw [e] at hhead
    · exact absurd (Option.some.inj hhead) hc.1
    · exact absurd (Option.some.inj hhead) hc.2

end SnippetRunner.Script
