import SnippetRunner.Proofs.Script.FirstWord
import SnippetRunner.Proofs.Script.Matches

/-
  References to what the host provides. A name counts as that of a member if a dot stands directly
  in front of it. `host_references_found` says which names and calls are found, and that a
  reference is passed over only behind a spread, whose last dot is taken for that of a member
  access.
-/
namespace SnippetRunner.Script

open SnippetRunner.Text SnippetRunner.Source

/-! ## Occurrences -/

/-- In `source`, `word` stands between `before` and `after`. It begins in code, and has no part
of a word beside it. -/
structure Occurs (isPart : Char → Bool) (source before word after : List Char) : Prop where
  join : source = before ++ (word ++ after)
  code : (regions source)[before.length]? = some .code
  begins : before.getLast?.any isPart = false
  ends : after.head?.any isPart = false

/-- The last significant character before a place is a dot of the code that does not end a
spread. -/
def isMemberAccess (source : List Char) (place : Nat) : Bool :=
  match ((glyphs source).take place).reverse.dropWhile (!·.isSignificant) with
  | [] => false
  | last :: before => last.isCode && last.char = '.' && (before.take 2).map Glyph.char ≠ ['.', '.']

/-- An identifier of its own, in code, that is not the name of a member. -/
structure IsReference (source before word after : List Char) : Prop where
  occurs : Occurs isIdentifierPart source before word after
  free : isMemberAccess source before.length = false

/-- A parenthesis follows, maybe behind blanks. -/
def IsCalled (after : List Char) : Prop := (trimStart after).head? = some '('

instance (after : List Char) : Decidable (IsCalled after) :=
  inferInstanceAs (Decidable ((trimStart after).head? = some '('))

/-- Directly behind the dot of a member access, or the last one of a spread. -/
def BehindDot (before : List Char) : Prop := before.getLast? = some '.'

/-- Directly behind a spread. -/
def BehindSpread (before : List Char) : Prop := "...".toList <:+ before

variable {source before word after : List Char}

theorem any_isWord_of_isIdentifierPart {c : Option Char} (h : c.any isIdentifierPart = false) :
    c.any isWord = false := by
  cases c with
  | none => rfl
  | some c =>
    rw [Option.any_some, isIdentifierPart, Bool.or_eq_false_iff] at h
    exact h.1

/-- Whole identifiers are whole words. -/
theorem Occurs.isWord (h : Occurs isIdentifierPart source before word after) :
    Occurs isWord source before word after where
  join := h.join
  code := h.code
  begins := any_isWord_of_isIdentifierPart h.begins
  ends := any_isWord_of_isIdentifierPart h.ends

/-! ## What a search finds -/

theorem wordBegins_reverse (before : List Char) :
    wordBegins before.reverse = !before.getLast?.any isWord := by
  rw [wordBegins, wordEnds, List.head?_reverse]

theorem isMember_reverse : isMember before.reverse = false ↔ ¬BehindDot before := by
  rw [isMember, List.head?_reverse, BehindDot, decide_eq_false_iff_not]

/-- A search for a word comes to its occurrences that also pass another test of what stands
before. -/
theorem occursInCode_iff_occurs {p : (before text : List Char) → Bool} (test : List Char → Bool)
    (hword : word ≠ [])
    (hp : ∀ before text, p before text = (test before && (afterWord? word before text).isSome)) :
    occursInCode p source = true ↔ ∃ before after, Occurs isWord source before word after ∧
      test before.reverse = true := by
  rw [occursInCode, anyInCode_eq_true_iff]
  constructor
  · rintro ⟨before, text, hsource, -, hcode, hfound⟩
    rw [List.append_nil, hp, afterWord?_isSome, Bool.and_eq_true, Bool.and_eq_true,
      Option.any_eq_true] at hfound
    obtain ⟨htest, hbegins, after, hafter, hends⟩ := hfound
    obtain rfl := dropStart?_eq_some_iff.mp hafter
    rw [wordBegins_reverse, Bool.not_eq_true'] at hbegins
    rw [wordEnds, Bool.not_eq_true'] at hends
    exact ⟨before, after, ⟨hsource, hcode, hbegins, hends⟩, htest⟩
  · rintro ⟨before, after, h, htest⟩
    refine ⟨before, word ++ after, h.join, by simp [hword], h.code, ?_⟩
    rw [List.append_nil, hp, htest, afterWord?_isSome, wordBegins_reverse, h.begins,
      dropStart?_eq_some_iff.mpr rfl, Option.any_some, wordEnds, h.ends]
    rfl

theorem mentions_iff {global : String} (h : global.toList ≠ []) :
    Capability.mentions source global = true ↔
      ∃ before after, Occurs isWord source before global.toList after ∧ ¬BehindDot before := by
  rw [Capability.mentions, occursInCode_iff_occurs (fun before => !isMember before) h
    fun before text => rfl]
  simp only [Bool.not_eq_true', isMember_reverse]

theorem occursInCode_or (p q : (before text : List Char) → Bool) :
    occursInCode (fun before text => p before text || q before text) source = true ↔
      occursInCode p source = true ∨ occursInCode q source = true := by
  simp only [occursInCode, anyInCode_eq_true_iff, Bool.or_eq_true, and_or_left, exists_or]

theorem occursInCode_isModuleDeclaration :
    occursInCode isModuleDeclaration source = true ↔
      ∃ keyword ∈ ["import".toList, "export".toList], ∃ before after,
        Occurs isWord source before keyword after ∧ isDeclarationHead before.reverse = true := by
  have hor : isModuleDeclaration = fun before text =>
      (isDeclarationHead before && (afterWord? "import".toList before text).isSome) ||
        (isDeclarationHead before && (afterWord? "export".toList before text).isSome) := by
    funext before text
    rw [isModuleDeclaration, Bool.and_or_distrib_left]
  rw [hor, occursInCode_or,
    occursInCode_iff_occurs isDeclarationHead (by decide) fun _ _ => rfl,
    occursInCode_iff_occurs isDeclarationHead (by decide) fun _ _ => rfl]
  simp only [List.mem_cons, List.not_mem_nil, or_false, exists_eq_or_imp, exists_eq_left]

/-- A search for calls of a function. -/
theorem occursInCode_called (hword : word ≠ []) :
    occursInCode (fun before text => (wordBegins before && !isMember before) &&
        (dropStart? word text).any fun rest => (trimStart rest).head? = some '(') source = true ↔
      ∃ before after, Occurs isWord source before word after ∧ IsCalled after ∧
        ¬BehindDot before := by
  rw [occursInCode, anyInCode_eq_true_iff]
  constructor
  · rintro ⟨before, text, hsource, -, hcode, hfound⟩
    rw [List.append_nil, Bool.and_eq_true, Bool.and_eq_true, Bool.not_eq_true', isMember_reverse,
      wordBegins_reverse, Bool.not_eq_true', Option.any_eq_true] at hfound
    obtain ⟨⟨hbegins, hmember⟩, after, hafter, hcalled⟩ := hfound
    obtain rfl := dropStart?_eq_some_iff.mp hafter
    rw [decide_eq_true_eq] at hcalled
    have hends : wordEnds after = true := by
      refine wordEnds_of_trimStart ?_
      rw [wordEnds, hcalled]
      decide
    rw [wordEnds, Bool.not_eq_true'] at hends
    exact ⟨before, after, ⟨hsource, hcode, hbegins, hends⟩, hcalled, hmember⟩
  · rintro ⟨before, after, h, hcalled, hmember⟩
    refine ⟨before, word ++ after, h.join, by simp [hword], h.code, ?_⟩
    rw [IsCalled] at hcalled
    rw [List.append_nil, wordBegins_reverse, h.begins, isMember_reverse.mpr hmember,
      dropStart?_eq_some_iff.mpr rfl, Option.any_some, decide_eq_true hcalled]
    rfl

theorem occursInCode_isLoadCall :
    occursInCode isLoadCall source = true ↔
      ∃ name ∈ ["require".toList, "import".toList], ∃ before after,
        Occurs isWord source before name after ∧ IsCalled after ∧ ¬BehindDot before := by
  have hor : isLoadCall = fun before text =>
      ((wordBegins before && !isMember before) &&
        (dropStart? "require".toList text).any fun rest => (trimStart rest).head? = some '(') ||
      ((wordBegins before && !isMember before) &&
        (dropStart? "import".toList text).any fun rest => (trimStart rest).head? = some '(') := by
    funext before text
    simp only [isLoadCall, List.map_cons, List.map_nil, List.any_cons, List.any_nil, Bool.or_false,
      Bool.and_or_distrib_left]
  rw [hor, occursInCode_or, occursInCode_called (by decide), occursInCode_called (by decide)]
  simp only [List.mem_cons, List.not_mem_nil, or_false, exists_eq_or_imp, exists_eq_left]

/-! ## References behind a dot -/

/-- A character in front of code that is neither a mark nor in front of a line end is code. -/
theorem isCode_of_beforeCode {gs before after : List Glyph} {g h : Glyph}
    (hchain : gs.IsChain Borders) (hgs : gs = before ++ g :: h :: after) (hcode : h.isCode = true)
    (hg : g.char ∉ borderChars) (hh : h.char ≠ '\n') : g.isCode = true := by
  rw [hgs] at hchain
  have hborders : Borders g h :=
    (List.isChain_cons_cons.mp hchain.right_of_append).1
  by_contra hnot
  rcases hborders.entersCode (by simpa using hnot) hcode with hmem | hfeed
  · exact hg hmem
  · exact hh hfeed

/-- The glyphs around a place between two characters. -/
theorem exists_glyphs {init rest : List Char} {c d : Char}
    (h : source = init ++ c :: d :: rest) : ∃ before g g' after,
      glyphs source = before ++ g :: g' :: after ∧ before.map Glyph.char = init ∧ g.char = c ∧
        g'.char = d := by
  have hchars := (map_char_glyphs source).trans h
  obtain ⟨before, behind, hglyphs, hinit, hbehind⟩ := List.map_eq_append_iff.mp hchars
  obtain ⟨g, tail, rfl, hg, htail⟩ := List.map_eq_cons_iff.mp hbehind
  obtain ⟨g', after, rfl, hg', -⟩ := List.map_eq_cons_iff.mp htail
  exact ⟨before, g, g', after, hglyphs, hinit, hg, hg'⟩

/-- A reference stands directly behind a dot only if that ends a spread. -/
theorem IsReference.behindDot_iff (h : IsReference source before word after) (hne : word ≠ [])
    (hword : '\n' ∉ word) : BehindDot before ↔ BehindSpread before := by
  constructor
  · intro hdot
    obtain ⟨init, rfl⟩ := List.getLast?_eq_some_iff.mp hdot
    obtain ⟨d, more, rfl⟩ := List.exists_cons_of_ne_nil hne
    have hsplit : source = init ++ '.' :: d :: (more ++ after) := by
      rw [h.occurs.join]
      simp
    obtain ⟨gs, g, g', rest, hglyphs, hinit, hg, hg'⟩ := exists_glyphs hsplit
    have hlength : (init ++ ['.']).length = gs.length + 1 := by
      rw [← hinit]
      simp
    have hcode' : g'.isCode = true := by
      have hcode := h.occurs.code
      rw [regions, hglyphs, hlength] at hcode
      simpa [Glyph.isCode] using hcode
    have hcode : g.isCode = true := by
      refine isCode_of_beforeCode (isChain_glyphs source) hglyphs hcode' ?_ ?_
      · rw [hg]
        decide
      · rw [hg']
        exact fun e => hword (e ▸ List.mem_cons_self ..)
    have hsignificant : g.isSignificant = true :=
      Glyph.isSignificant_of_isCode hcode (by rw [hg]; decide)
    have hfree := h.free
    have htake : ((glyphs source).take (init ++ ['.']).length).reverse = g :: gs.reverse := by
      rw [hlength, hglyphs, List.append_cons, List.take_left' (by simp), List.reverse_concat]
    rw [isMemberAccess, htake, List.dropWhile_cons_of_neg (by simp [hsignificant])] at hfree
    simp only [hcode, hg, decide_true, Bool.and_true, Bool.true_and, ne_eq, decide_not,
      Bool.not_eq_false', decide_eq_true_eq] at hfree
    rw [List.map_take, List.map_reverse, hinit] at hfree
    obtain ⟨front, hfront⟩ : ∃ front, init = front ++ ['.', '.'] := by
      have hsplit := congrArg List.reverse (List.take_append_drop 2 init.reverse)
      rw [hfree, List.reverse_reverse, List.reverse_append] at hsplit
      exact ⟨_, hsplit.symm⟩
    exact ⟨front, by rw [hfront, List.append_assoc]; rfl⟩
  · rintro ⟨init, rfl⟩
    rw [BehindDot, List.getLast?_append]
    rfl

/-! ## Detection -/

/-- What is found of the names and calls of a script. -/
structure ReferencesFound (source : List Char) : Prop where
  /-- It is what the matches in code ask for, though no match is looked for within another. -/
  matched : Capability.required source = Capability.all.filter (isMatched source)
  /-- Every reference to a global is found, but for one directly behind a spread. -/
  reference : ∀ capability ≠ .modules, ∀ global ∈ capability.globals, ∀ before after,
    IsReference source before global.toList after → ¬BehindSpread before →
      capability ∈ Capability.required source
  /-- So is every call that loads a module. -/
  call : ∀ name ∈ ["require".toList, "import".toList], ∀ before after,
    IsReference source before name after → IsCalled after → ¬BehindSpread before →
      .modules ∈ Capability.required source
  /-- A capability is required exactly if one of its globals is a whole word of the code and not
  directly behind a dot. -/
  named : ∀ capability ≠ .modules, capability ∈ Capability.required source ↔
    ∃ global ∈ capability.globals, ∃ before after,
      Occurs isWord source before global.toList after ∧ ¬BehindDot before
  /-- Module loading is required exactly if a declaration stands at the head of a statement, or a
  call that loads not directly behind a dot. -/
  loaded : .modules ∈ Capability.required source ↔
    (∃ keyword ∈ ["import".toList, "export".toList], ∃ before after,
      Occurs isWord source before keyword after ∧ isDeclarationHead before.reverse = true) ∨
    ∃ name ∈ ["require".toList, "import".toList], ∃ before after,
      Occurs isWord source before name after ∧ IsCalled after ∧ ¬BehindDot before

theorem mem_required_iff {capability : Capability} :
    capability ∈ Capability.required source ↔ capability.isRequired source = true := by
  have hall : capability ∈ Capability.all := by cases capability <;> decide
  rw [Capability.required, List.mem_filter]
  exact and_iff_right hall

theorem mem_required_iff_named {capability : Capability} (h : capability ≠ .modules) :
    capability ∈ Capability.required source ↔ ∃ global ∈ capability.globals, ∃ before after,
      Occurs isWord source before global.toList after ∧ ¬BehindDot before := by
  rw [mem_required_iff, isRequired_of_ne_modules h, List.any_eq_true]
  refine exists_congr fun global => and_congr_right fun hglobal => ?_
  exact mentions_iff (isInner_globals capability global hglobal).1

theorem modules_mem_required_iff : .modules ∈ Capability.required source ↔
    (∃ keyword ∈ ["import".toList, "export".toList], ∃ before after,
      Occurs isWord source before keyword after ∧ isDeclarationHead before.reverse = true) ∨
    ∃ name ∈ ["require".toList, "import".toList], ∃ before after,
      Occurs isWord source before name after ∧ IsCalled after ∧ ¬BehindDot before := by
  rw [mem_required_iff, Capability.isRequired, usesModules, Bool.or_eq_true,
    occursInCode_isModuleDeclaration, occursInCode_isLoadCall]

theorem host_references_found (source : List Char) : ReferencesFound source where
  matched := (List.filter_congr fun capability _ => isMatched_eq source capability).symm
  reference capability hcapability global hglobal before after h hspread := by
    have hinner := isInner_globals capability global hglobal
    refine (mem_required_iff_named hcapability).mpr ⟨global, hglobal, before, after, ?_, ?_⟩
    · exact h.occurs.isWord
    · exact mt (h.behindDot_iff hinner.1 fun hfeed => (hinner.2 _ hfeed).2 rfl).mp hspread
  call name hname before after h hcalled hspread := by
    refine modules_mem_required_iff.mpr (Or.inr ⟨name, hname, before, after, ?_, hcalled, ?_⟩)
    · exact h.occurs.isWord
    · rw [List.mem_cons, List.mem_singleton] at hname
      refine mt (h.behindDot_iff ?_ ?_).mp hspread
      · rcases hname with rfl | rfl <;> decide
      · rcases hname with rfl | rfl <;> decide
  named capability hcapability := mem_required_iff_named hcapability
  loaded := modules_mem_required_iff

/-- The last dot of a spread is taken for that of a member access: of a global, and of a call. -/
theorem spread_references_missed :
    IsReference "console.log(...process.argv)".toList "console.log(...".toList "process".toList
        ".argv)".toList ∧
      Capability.required "console.log(...process.argv)".toList = [] ∧
      IsReference "[...require('fs')]".toList "[...".toList "require".toList "('fs')]".toList ∧
      IsCalled "('fs')]".toList ∧
      Capability.required "[...require('fs')]".toList = [] := by
  refine ⟨⟨⟨?_, ?_, ?_, ?_⟩, ?_⟩, ?_, ⟨⟨?_, ?_, ?_, ?_⟩, ?_⟩, ?_, ?_⟩ <;> decide +kernel

end SnippetRunner.Script
