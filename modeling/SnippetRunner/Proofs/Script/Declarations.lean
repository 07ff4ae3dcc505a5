import Mathlib.Data.List.TakeWhile
import SnippetRunner.Script.DeclarationForm

/-
  What a reader of module declarations takes from a text: it gives back an end of the text, and
  the names that it reads lie within a line. So the code for a declaration has no line end. The
  one exception is the keyword of an exported binding, `async function`, which is kept as it was
  written, with the blanks between its words.
-/
namespace SnippetRunner.Script

open SnippetRunner.Text

/-! ## Line ends -/

@[simp] theorem newlines_append (a b : List Char) : newlines (a ++ b) = newlines a + newlines b :=
  List.count_append ..

theorem newlines_append_cons {c : Char} (hc : c ≠ '\n') (a b : List Char) :
    newlines (a ++ c :: b) = newlines a + newlines b := by
  rw [newlines_append, newlines, newlines, newlines, List.count_cons_of_ne hc]

theorem newlines_eq_zero {s : List Char} : newlines s = 0 ↔ ∀ c ∈ s, c ≠ '\n' := by
  rw [newlines, List.count_eq_zero]
  exact ⟨fun h c hc e => h (e ▸ hc), fun h hm => h _ hm rfl⟩

theorem newlines_flatten_intersperse {separator : List Char} {pieces : List (List Char)}
    (hs : newlines separator = 0) (hp : ∀ piece ∈ pieces, newlines piece = 0) :
    newlines (pieces.intersperse separator).flatten = 0 := by
  induction pieces with
  | nil => rfl
  | cons piece pieces ih =>
    have h := hp piece (List.mem_cons_self ..)
    have ih := ih fun q hq => hp q (List.mem_cons_of_mem _ hq)
    cases pieces with
    | nil => simpa using h
    | cons q pieces =>
      rw [List.intersperse_cons_cons, List.flatten_cons, List.flatten_cons, newlines_append,
        newlines_append, h, hs, ih]

/-- Both names of an entry lie within a line. -/
structure Specifier.OneLine (s : Specifier) : Prop where
  source : newlines s.source = 0
  localName : newlines s.localName = 0

theorem Specifier.OneLine.pattern {s : Specifier} (h : s.OneLine) : newlines s.pattern = 0 := by
  unfold Specifier.pattern
  split
  · exact h.source
  · rw [newlines_append, newlines_append, h.source, h.localName]
    rfl

/-- Framing by texts without line ends. -/
theorem newlines_framed {a b : List Char} (ha : newlines a = 0) (s : List Char)
    (hb : newlines b = 0) : newlines (a ++ s ++ b) = newlines s := by
  rw [newlines_append, newlines_append, ha, hb, Nat.zero_add, Nat.add_zero]

theorem newlines_destructuring {named : List Specifier} (h : ∀ s ∈ named, s.OneLine) :
    newlines (destructuring named) = 0 := by
  rw [destructuring, newlines_framed (by decide) _ (by decide)]
  refine newlines_flatten_intersperse (by decide) fun piece hpiece => ?_
  obtain ⟨s, hs, rfl⟩ := List.mem_map.mp hpiece
  exact (h s hs).pattern

theorem newlines_loadCall (module : List Char) : newlines (loadCall module) = newlines module := by
  unfold loadCall
  refine newlines_framed ?_ module ?_
  · decide
  · decide

theorem newlines_defaultOf (module : List Char) :
    newlines (defaultOf module) = newlines module := by
  unfold defaultOf
  refine newlines_framed ?_ module ?_
  · decide
  · decide

theorem newlines_constant {pattern value : List Char} (hp : newlines pattern = 0)
    (hv : newlines value = 0) : newlines (constant pattern value) = 0 := by
  unfold constant
  simp only [newlines_append, hp, hv]
  decide

theorem newlines_moduleHolder {name : List Char} (h : newlines name = 0) :
    newlines (moduleHolder name) = 0 := by
  unfold moduleHolder
  simp only [newlines_append, h]
  decide

theorem newlines_exportAssignment {module : List Char} {s : Specifier}
    (hm : newlines module = 0) (h : s.OneLine) : newlines (exportAssignment module s) = 0 := by
  unfold exportAssignment
  simp only [newlines_append, newlines_loadCall, hm, h.source, h.localName]
  decide

/-! ## Readers -/

theorem suffix_of_dropStart? {start s rest : List Char} (h : dropStart? start s = some rest) :
    rest <:+ s :=
  ⟨start, (dropStart?_eq_some_iff.mp h).symm⟩

theorem trimStart_suffix (s : List Char) : trimStart s <:+ s := List.dropWhile_suffix _

theorem suffix_of_someBlanks? {s rest : List Char} (h : someBlanks? s = some rest) :
    rest <:+ s := by
  unfold someBlanks? at h
  split at h
  · obtain rfl := Option.some.inj h
    exact trimStart_suffix s
  · cases h

theorem declarationEnd_suffix (s : List Char) : declarationEnd s <:+ s := by
  have h := trimStart_suffix s
  unfold declarationEnd
  split
  · exact List.nil_suffix
  · next c rest e =>
    rw [e] at h
    split
    · exact (List.suffix_cons c rest).trans h
    · exact h

theorem newlines_takeWhile {p : Char → Bool} (h : p '\n' = false) (s : List Char) :
    newlines (s.takeWhile p) = 0 := by
  refine newlines_eq_zero.mpr fun c hc e => ?_
  have := List.mem_takeWhile_imp hc
  rw [e, h] at this
  cases this

theorem identifier?_eq_some {s name rest : List Char} (h : identifier? s = some (name, rest)) :
    rest <:+ s ∧ newlines name = 0 := by
  unfold identifier? at h
  split at h
  · obtain ⟨rfl, rfl⟩ := Prod.mk.inj (Option.some.inj h)
    exact ⟨List.dropWhile_suffix _, newlines_takeWhile (by decide) s⟩
  · cases h

theorem moduleName?_eq_some {s name rest : List Char} (h : moduleName? s = some (name, rest)) :
    rest <:+ s ∧ newlines name = 0 := by
  unfold moduleName? at h
  split at h
  · cases h
  · next c s =>
    dsimp only at h
    split at h
    · next close tail e =>
      split at h
      · obtain ⟨rfl, rfl⟩ := Prod.mk.inj (Option.some.inj h)
        have hdrop := List.drop_suffix (s.takeWhile fun d => !isQuote d && d ≠ '\n').length s
        rw [e] at hdrop
        refine ⟨?_, newlines_takeWhile (by decide) s⟩
        exact ((List.suffix_cons close tail).trans hdrop).trans (List.suffix_cons c s)
      · cases h
    · cases h

theorem newlines_of_mem_wordsAfter {current s word : List Char} (hc : newlines current = 0)
    (h : word ∈ wordsAfter current s) : newlines word = 0 := by
  induction s generalizing current with
  | nil =>
    unfold wordsAfter at h
    split at h
    · cases h
    · rw [List.mem_singleton.mp h, hc]
  | cons c s ih =>
    unfold wordsAfter at h
    split at h
    · split at h
      · exact ih rfl h
      · rcases List.mem_cons.mp h with rfl | h
        · exact hc
        · exact ih rfl h
    · next hblank =>
      refine ih ?_ h
      have hne : c ≠ '\n' := by
        rintro rfl
        exact hblank (by decide)
      rw [newlines_append, hc, newlines_eq_zero.mpr (by simpa using hne)]

theorem Specifier.oneLine_ofWords {words : List (List Char)}
    (h : ∀ word ∈ words, newlines word = 0) : (ofWords words).OneLine := by
  unfold ofWords
  split
  · refine ⟨h _ (by simp), ?_⟩
    dsimp only
    split
    · exact h _ (by simp)
    · exact h _ (by simp)
  · exact ⟨h _ (by simp), h _ (by simp)⟩
  · exact ⟨rfl, rfl⟩

theorem Specifier.oneLine_of_mem_ofList {list : List Char} {s : Specifier}
    (h : s ∈ Specifier.ofList list) : s.OneLine := by
  obtain ⟨entry, -, rfl⟩ := List.mem_map.mp h
  exact oneLine_ofWords fun word hw => newlines_of_mem_wordsAfter rfl hw

theorem bracedList?_eq_some {s rest : List Char} {named : List Specifier}
    (h : bracedList? s = some (named, rest)) : rest <:+ s ∧ ∀ e ∈ named, e.OneLine := by
  unfold bracedList? at h
  split at h
  · cases h
  · next c s =>
    dsimp only at h
    split at h
    · next close tail e =>
      split at h
      · obtain ⟨rfl, rfl⟩ := Prod.mk.inj (Option.some.inj h)
        have hdrop := List.drop_suffix (s.takeWhile (· ≠ '}')).length s
        rw [e] at hdrop
        refine ⟨?_, fun e he => Specifier.oneLine_of_mem_ofList he⟩
        exact ((List.suffix_cons close tail).trans hdrop).trans (List.suffix_cons c s)
      · cases h
    · cases h

theorem fromModule?_eq_some {s module rest : List Char}
    (h : fromModule? s = some (module, rest)) : rest <:+ s ∧ newlines module = 0 := by
  simp only [fromModule?, Option.bind_eq_bind, Option.bind_eq_some_iff, Prod.exists,
    Option.pure_def, Option.some.injEq, Prod.mk.injEq] at h
  obtain ⟨s₁, h₁, name, s₂, h₂, rfl, rfl⟩ := h
  obtain ⟨hs, hname⟩ := moduleName?_eq_some h₂
  refine ⟨?_, hname⟩
  exact (((declarationEnd_suffix s₂).trans hs).trans (trimStart_suffix s₁)).trans
    (suffix_of_dropStart? h₁)

theorem wholeModule?_eq_some {s whole rest : List Char}
    (h : wholeModule? s = some (whole, rest)) : rest <:+ s ∧ newlines whole = 0 := by
  simp only [wholeModule?, Option.bind_eq_bind, Option.bind_eq_some_iff, Prod.exists,
    Option.pure_def, Option.some.injEq, Prod.mk.injEq] at h
  obtain ⟨s₁, h₁, s₂, h₂, s₃, h₃, name, s₄, h₄, s₅, h₅, rfl, rfl⟩ := h
  obtain ⟨hs, hname⟩ := identifier?_eq_some h₄
  refine ⟨?_, hname⟩
  exact ((((suffix_of_someBlanks? h₅).trans hs).trans (suffix_of_someBlanks? h₃)).trans
    (suffix_of_dropStart? h₂)).trans ((trimStart_suffix s₁).trans (suffix_of_dropStart? h₁))

theorem defaultName?_eq_some {s name rest : List Char}
    (h : defaultName? s = some (name, rest)) : rest <:+ s ∧ newlines name = 0 := by
  simp only [defaultName?, Option.bind_eq_bind, Option.bind_eq_some_iff, Prod.exists,
    Option.pure_def, Option.some.injEq, Prod.mk.injEq] at h
  obtain ⟨s₁, h₁, name', s₂, h₂, s₃, h₃, rfl, rfl⟩ := h
  obtain ⟨hs, hname⟩ := identifier?_eq_some h₂
  refine ⟨?_, hname⟩
  exact (((trimStart_suffix s₃).trans (suffix_of_dropStart? h₃)).trans
    ((trimStart_suffix s₂).trans hs)).trans (suffix_of_someBlanks? h₁)

/-! ## The keyword of an exported binding -/

theorem someBlanks?_eq_some_iff {s rest : List Char} :
    someBlanks? s = some rest ↔ ∃ gap, gap ≠ [] ∧ (∀ c ∈ gap, isBlank c = true) ∧
      s = gap ++ rest ∧ rest.head?.any isBlank = false := by
  constructor
  · intro h
    unfold someBlanks? at h
    split at h
    · next hhead =>
      obtain rfl := Option.some.inj h
      refine ⟨s.takeWhile isBlank, ?_, fun c hc => List.mem_takeWhile_imp hc,
        List.takeWhile_append_dropWhile.symm, ?_⟩
      · cases s with
        | nil => cases hhead
        | cons c s =>
          rw [List.head?_cons, Option.any_some] at hhead
          rw [List.takeWhile_cons_of_pos hhead]
          exact List.cons_ne_nil _ _
      · unfold trimStart
        have := List.head?_dropWhile_not isBlank s
        cases hd : (s.dropWhile isBlank).head? with
        | none => rfl
        | some c =>
          rw [hd] at this
          simpa using this
    · cases h
  · rintro ⟨gap, hne, hblank, rfl, hrest⟩
    cases gap with
    | nil => exact absurd rfl hne
    | cons c gap =>
      have hc : isBlank c = true := hblank c (List.mem_cons_self ..)
      have hdrop : rest.dropWhile isBlank = rest := by
        cases rest with
        | nil => rfl
        | cons d rest => exact List.dropWhile_cons_of_neg (by simpa using hrest)
      rw [someBlanks?, List.cons_append, List.head?_cons, Option.any_some, if_pos hc,
        ← List.cons_append, trimStart, List.dropWhile_append_of_pos hblank, hdrop]

/-- The keywords of bindings; any blanks may stand between the words of the last. -/
inductive IsBindingKeyword : List Char → Prop
  | plain {keyword : List Char}
      (listed : keyword ∈ ["const", "let", "var", "function", "class"].map String.toList) :
      IsBindingKeyword keyword
  | async {inner : List Char} (nonempty : inner ≠ []) (blank : ∀ c ∈ inner, isBlank c = true) :
      IsBindingKeyword ("async".toList ++ inner ++ "function".toList)

theorem bindingKeyword?_eq_some {s keyword rest : List Char}
    (h : bindingKeyword? s = some (keyword, rest)) :
    IsBindingKeyword keyword ∧ s = keyword ++ rest ∧ wordEnds rest = true := by
  unfold bindingKeyword? at h
  dsimp only at h
  rw [Option.or_eq_some_iff] at h
  rcases h with h | ⟨-, h⟩
  · obtain ⟨k, hk, h⟩ := List.exists_of_findSome?_eq_some h
    obtain ⟨r, hdrop, h⟩ := Option.bind_eq_some_iff.mp h
    split at h
    · next hends =>
      obtain ⟨rfl, rfl⟩ := Prod.mk.inj (Option.some.inj h)
      exact ⟨.plain hk, dropStart?_eq_some_iff.mp hdrop, hends⟩
    · cases h
  · simp only [Option.bind_eq_bind, Option.bind_eq_some_iff] at h
    obtain ⟨a, ha, b, hb, r, hr, h⟩ := h
    split at h
    · next hends =>
      obtain ⟨rfl, rfl⟩ := Prod.mk.inj (Option.some.inj h)
      obtain ⟨inner, hne, hblank, rfl, -⟩ := someBlanks?_eq_some_iff.mp hb
      obtain rfl := dropStart?_eq_some_iff.mp hr
      obtain rfl := dropStart?_eq_some_iff.mp ha
      have htake : ("async".toList ++ (inner ++ ("function".toList ++ r))).take
          (("async".toList ++ (inner ++ ("function".toList ++ r))).length - r.length) =
            "async".toList ++ inner ++ "function".toList := by
        rw [← List.append_assoc inner, ← List.append_assoc, ← List.append_assoc]
        refine List.take_left' ?_
        simp only [List.length_append]
        omega
      rw [htake]
      refine ⟨.async hne hblank, ?_, hends⟩
      simp only [List.append_assoc]
    · cases h

theorem bindingKeyword?_async {inner rest : List Char} (hne : inner ≠ [])
    (hblank : ∀ c ∈ inner, isBlank c = true) (hends : wordEnds rest = true) :
    bindingKeyword? ("async".toList ++ inner ++ "function".toList ++ rest) =
      some ("async".toList ++ inner ++ "function".toList, rest) := by
  have hassoc : "async".toList ++ inner ++ "function".toList ++ rest =
      "async".toList ++ (inner ++ ("function".toList ++ rest)) := by
    simp only [List.append_assoc]
  have htake : ("async".toList ++ inner ++ "function".toList ++ rest).take
      (("async".toList ++ inner ++ "function".toList ++ rest).length - rest.length) =
        "async".toList ++ inner ++ "function".toList := by
    refine List.take_left' ?_
    simp only [List.length_append]
    omega
  have hblanks : someBlanks? (inner ++ ("function".toList ++ rest)) =
      some ("function".toList ++ rest) :=
    someBlanks?_eq_some_iff.mpr ⟨inner, hne, hblank, rfl, rfl⟩
  unfold bindingKeyword?
  dsimp only
  rw [Option.or_eq_some_iff]
  refine Or.inr ⟨?_, ?_⟩
  · rw [List.findSome?_eq_none_iff]
    intro k hk
    rw [hassoc]
    simp only [List.map_cons, List.map_nil, List.mem_cons, List.not_mem_nil, or_false] at hk
    rcases hk with rfl | rfl | rfl | rfl | rfl <;> rfl
  · simp only [Option.bind_eq_bind, Option.bind_eq_some_iff]
    refine ⟨_, dropStart?_eq_some_iff.mpr hassoc, _, hblanks, rest,
      dropStart?_eq_some_iff.mpr rfl, ?_⟩
    rw [if_pos hends, htake]

/-! ## Forms -/

namespace Form

theorem mem_all (form : Form) : form ∈ all := by cases form <;> decide

/-- The word with which declarations of a form begin. -/
def opening : Form → List Char
  | importDefaultAndWhole | importDefaultAndNamed | importWhole | importNamed | importDefault
  | importBare => "import".toList
  | exportDefault | exportBinding | exportNamedFrom | exportAllFrom | exportNames =>
    "export".toList

theorem opening_eq (form : Form) :
    form.opening = "import".toList ∨ form.opening = "export".toList := by
  cases form
  case exportDefault | exportBinding | exportNamedFrom | exportAllFrom | exportNames =>
    exact Or.inr rfl
  all_goals exact Or.inl rfl

theorem length_opening (form : Form) : form.opening.length = 6 := by cases form <;> decide

theorem letters_opening (form : Form) : form.opening.all isWord = true := by
  rcases form.opening_eq with e | e <;> rw [e] <;> decide

/-- What a declaration leaves of the text lies after its first word. -/
theorem read?_suffix {form : Form} {s rest : List Char} {d : Declaration}
    (h : form.read? s = some (d, rest)) :
    ∃ s₁, s = form.opening ++ s₁ ∧ rest <:+ s₁ := by
  cases form <;>
    simp only [read?, Option.bind_eq_bind, Option.bind_eq_some_iff, Prod.exists, Option.pure_def,
      Option.some.injEq, Prod.mk.injEq] at h
  case importDefaultAndWhole =>
    obtain ⟨s₁, h₁, _, s₂, h₂, _, s₃, h₃, _, s₄, h₄, -, rfl⟩ := h
    refine ⟨s₁, dropStart?_eq_some_iff.mp h₁, ?_⟩
    exact ((fromModule?_eq_some h₄).1.trans (wholeModule?_eq_some h₃).1).trans
      (defaultName?_eq_some h₂).1
  case importDefaultAndNamed =>
    obtain ⟨s₁, h₁, _, s₂, h₂, _, s₃, h₃, _, s₄, h₄, -, rfl⟩ := h
    refine ⟨s₁, dropStart?_eq_some_iff.mp h₁, ?_⟩
    exact (((fromModule?_eq_some h₄).1.trans (trimStart_suffix s₃)).trans
      (bracedList?_eq_some h₃).1).trans (defaultName?_eq_some h₂).1
  case importWhole =>
    obtain ⟨s₁, h₁, _, s₂, h₂, _, s₃, h₃, -, rfl⟩ := h
    refine ⟨s₁, dropStart?_eq_some_iff.mp h₁, ?_⟩
    exact ((fromModule?_eq_some h₃).1.trans (wholeModule?_eq_some h₂).1).trans
      (trimStart_suffix s₁)
  case importNamed =>
    obtain ⟨s₁, h₁, _, s₂, h₂, _, s₃, h₃, -, rfl⟩ := h
    refine ⟨s₁, dropStart?_eq_some_iff.mp h₁, ?_⟩
    exact (((fromModule?_eq_some h₃).1.trans (trimStart_suffix s₂)).trans
      (bracedList?_eq_some h₂).1).trans (trimStart_suffix s₁)
  case importDefault =>
    obtain ⟨s₁, h₁, s₂, h₂, _, s₃, h₃, s₄, h₄, _, s₅, h₅, -, rfl⟩ := h
    refine ⟨s₁, dropStart?_eq_some_iff.mp h₁, ?_⟩
    exact (((fromModule?_eq_some h₅).1.trans (suffix_of_someBlanks? h₄)).trans
      (identifier?_eq_some h₃).1).trans (suffix_of_someBlanks? h₂)
  case importBare =>
    obtain ⟨s₁, h₁, _, s₂, h₂, -, rfl⟩ := h
    refine ⟨s₁, dropStart?_eq_some_iff.mp h₁, ?_⟩
    exact ((declarationEnd_suffix s₂).trans (moduleName?_eq_some h₂).1).trans
      (trimStart_suffix s₁)
  case exportDefault =>
    obtain ⟨s₁, h₁, s₂, h₂, s₃, h₃, s₄, h₄, -, rfl⟩ := h
    refine ⟨s₁, dropStart?_eq_some_iff.mp h₁, ?_⟩
    exact ((suffix_of_someBlanks? h₄).trans (suffix_of_dropStart? h₃)).trans
      (suffix_of_someBlanks? h₂)
  case exportBinding =>
    obtain ⟨s₁, h₁, s₂, h₂, keyword, s₃, h₃, -, rfl⟩ := h
    refine ⟨s₁, dropStart?_eq_some_iff.mp h₁, ?_⟩
    have hs : s₃ <:+ s₂ := ⟨keyword, (bindingKeyword?_eq_some h₃).2.1.symm⟩
    exact hs.trans (suffix_of_someBlanks? h₂)
  case exportNamedFrom =>
    obtain ⟨s₁, h₁, _, s₂, h₂, _, s₃, h₃, -, rfl⟩ := h
    refine ⟨s₁, dropStart?_eq_some_iff.mp h₁, ?_⟩
    exact (((fromModule?_eq_some h₃).1.trans (trimStart_suffix s₂)).trans
      (bracedList?_eq_some h₂).1).trans (trimStart_suffix s₁)
  case exportAllFrom =>
    obtain ⟨s₁, h₁, s₂, h₂, _, s₃, h₃, -, rfl⟩ := h
    refine ⟨s₁, dropStart?_eq_some_iff.mp h₁, ?_⟩
    exact (((fromModule?_eq_some h₃).1.trans (trimStart_suffix s₂)).trans
      (suffix_of_dropStart? h₂)).trans (trimStart_suffix s₁)
  case exportNames =>
    obtain ⟨s₁, h₁, _, s₂, h₂, -, rfl⟩ := h
    refine ⟨s₁, dropStart?_eq_some_iff.mp h₁, ?_⟩
    exact ((declarationEnd_suffix s₂).trans (bracedList?_eq_some h₂).1).trans
      (trimStart_suffix s₁)

/-- The code for a declaration lies within a line, except where it repeats a keyword. -/
theorem newlines_render {form : Form} {s rest : List Char} {d : Declaration}
    (hform : form ≠ .exportBinding) (h : form.read? s = some (d, rest)) :
    newlines d.render = 0 := by
  cases form <;>
    simp only [read?, Option.bind_eq_bind, Option.bind_eq_some_iff, Prod.exists, Option.pure_def,
      Option.some.injEq, Prod.mk.injEq] at h
  case importDefaultAndWhole =>
    obtain ⟨s₁, -, name, s₂, h₂, whole, s₃, h₃, module, s₄, h₄, rfl, -⟩ := h
    have hname := (defaultName?_eq_some h₂).2
    have hwhole := (wholeModule?_eq_some h₃).2
    have hmodule := (fromModule?_eq_some h₄).2
    have hspace : newlines " ".toList = 0 := by decide
    have hload := newlines_constant hwhole ((newlines_loadCall module).trans hmodule)
    have hdefault := newlines_constant hname ((newlines_defaultOf whole).trans hwhole)
    unfold Declaration.render
    rw [newlines_append, newlines_append, hload, hspace, hdefault]
  case importDefaultAndNamed =>
    obtain ⟨s₁, -, name, s₂, h₂, named, s₃, h₃, module, s₄, h₄, rfl, -⟩ := h
    have hname := (defaultName?_eq_some h₂).2
    have hnamed := newlines_destructuring (bracedList?_eq_some h₃).2
    have hmodule := (fromModule?_eq_some h₄).2
    have hholder := newlines_moduleHolder hname
    have hspace : newlines " ".toList = 0 := by decide
    have hload := newlines_constant hholder ((newlines_loadCall module).trans hmodule)
    have hnames := newlines_constant hnamed hholder
    have hdefault :=
      newlines_constant hname ((newlines_defaultOf (moduleHolder name)).trans hholder)
    unfold Declaration.render
    rw [newlines_append, newlines_append, newlines_append, newlines_append, hload, hspace, hnames,
      hdefault]
  case importWhole =>
    obtain ⟨s₁, -, whole, s₂, h₂, module, s₃, h₃, rfl, -⟩ := h
    exact newlines_constant (wholeModule?_eq_some h₂).2
      ((newlines_loadCall module).trans (fromModule?_eq_some h₃).2)
  case importNamed =>
    obtain ⟨s₁, -, named, s₂, h₂, module, s₃, h₃, rfl, -⟩ := h
    exact newlines_constant (newlines_destructuring (bracedList?_eq_some h₂).2)
      ((newlines_loadCall module).trans (fromModule?_eq_some h₃).2)
  case importDefault =>
    obtain ⟨s₁, -, s₂, -, name, s₃, h₃, s₄, -, module, s₅, h₅, rfl, -⟩ := h
    have hload := (newlines_loadCall module).trans (fromModule?_eq_some h₅).2
    exact newlines_constant (identifier?_eq_some h₃).2
      ((newlines_defaultOf (loadCall module)).trans hload)
  case importBare =>
    obtain ⟨s₁, -, module, s₂, h₂, rfl, -⟩ := h
    have hend : newlines ";".toList = 0 := by decide
    unfold Declaration.render
    rw [newlines_append, newlines_loadCall, (moduleName?_eq_some h₂).2, hend]
  case exportDefault =>
    obtain ⟨s₁, -, s₂, -, s₃, -, s₄, -, rfl, -⟩ := h
    rfl
  case exportBinding => exact absurd rfl hform
  case exportNamedFrom =>
    obtain ⟨s₁, -, named, s₂, h₂, module, s₃, h₃, rfl, -⟩ := h
    refine newlines_flatten_intersperse (by decide) fun piece hpiece => ?_
    obtain ⟨e, he, rfl⟩ := List.mem_map.mp hpiece
    exact newlines_exportAssignment (fromModule?_eq_some h₃).2 ((bracedList?_eq_some h₂).2 e he)
  case exportAllFrom =>
    obtain ⟨s₁, -, s₂, -, module, s₃, h₃, rfl, -⟩ := h
    have h := (newlines_loadCall module).trans (fromModule?_eq_some h₃).2
    exact (newlines_framed (by decide) (loadCall module) (by decide)).trans h
  case exportNames =>
    obtain ⟨s₁, -, named, s₂, -, rfl, -⟩ := h
    rfl

/-- An exported binding, read. -/
theorem exportBinding_read? {s rest : List Char} {d : Declaration}
    (h : Form.exportBinding.read? s = some (d, rest)) :
    ∃ gap keyword, gap ≠ [] ∧ (∀ c ∈ gap, isBlank c = true) ∧ IsBindingKeyword keyword ∧
      s = "export".toList ++ gap ++ keyword ++ rest ∧ wordEnds rest = true ∧
      d = .exportBinding keyword := by
  simp only [read?, Option.bind_eq_bind, Option.bind_eq_some_iff, Prod.exists, Option.pure_def,
    Option.some.injEq, Prod.mk.injEq] at h
  obtain ⟨s₁, h₁, s₂, h₂, keyword, s₃, h₃, rfl, rfl⟩ := h
  obtain ⟨gap, hne, hblank, rfl, -⟩ := someBlanks?_eq_some_iff.mp h₂
  obtain ⟨hkeyword, rfl, hends⟩ := bindingKeyword?_eq_some h₃
  refine ⟨gap, keyword, hne, hblank, hkeyword, ?_, hends, rfl⟩
  rw [dropStart?_eq_some_iff.mp h₁]
  simp only [List.append_assoc]

theorem exportBinding_read?_async {gap inner rest : List Char} (hne : gap ≠ [])
    (hblank : ∀ c ∈ gap, isBlank c = true) (hinner : inner ≠ [])
    (hinnerBlank : ∀ c ∈ inner, isBlank c = true) (hends : wordEnds rest = true) :
    Form.exportBinding.read? ("export".toList ++ gap
        ++ ("async".toList ++ inner ++ "function".toList) ++ rest) =
      some (.exportBinding ("async".toList ++ inner ++ "function".toList), rest) := by
  have hassoc : "export".toList ++ gap ++ ("async".toList ++ inner ++ "function".toList) ++ rest =
      "export".toList ++ (gap ++ ("async".toList ++ inner ++ "function".toList ++ rest)) := by
    simp only [List.append_assoc]
  have hgap : someBlanks? (gap ++ ("async".toList ++ inner ++ "function".toList ++ rest)) =
      some ("async".toList ++ inner ++ "function".toList ++ rest) :=
    someBlanks?_eq_some_iff.mpr ⟨gap, hne, hblank, rfl, rfl⟩
  simp only [read?, Option.bind_eq_bind, Option.bind_eq_some_iff, Prod.exists, Option.pure_def,
    Option.some.injEq, Prod.mk.injEq]
  exact ⟨_, dropStart?_eq_some_iff.mpr hassoc, _, hgap, _, _,
    bindingKeyword?_async hinner hinnerBlank hends, rfl, rfl⟩

end Form

end SnippetRunner.Script
