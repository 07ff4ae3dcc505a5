import SnippetRunner.Proofs.Script.Detection
import SnippetRunner.Proofs.Script.LineCount
import SnippetRunner.Proofs.Text.Word

/-
  Searches that go on behind each match. A pattern is searched for from left to right, and what one
  match takes is not looked at again; what a match takes depends on the names in the pattern and on
  the blanks between. Of the patterns for names, calls and declarations no two matches share a
  character (`IsSeparate`), so nothing is lost (`mem_hits_iff`), and the matches tell what a script
  requires (`isMatched_eq`).
-/
namespace SnippetRunner.Script

open SnippetRunner.Text SnippetRunner.Source

/-! ## Patterns -/

/-- What a match takes: a word, and what the pattern has in front of it and behind it. -/
structure Taken where
  lead : List Char
  word : List Char
  tail : List Char

def Taken.text (taken : Taken) : List Char := taken.lead ++ (taken.word ++ taken.tail)

/-- What a pattern takes from the head of a text, given what stands before it, last first. -/
def Pattern : Type := (before text : List Char) → Option Taken

/-- A word that was found, and what stands before it, last first. -/
structure Hit where
  before : List Char
  word : List Char

/-- The words found in a text. The first `skip` characters were taken by the match before. -/
def hitsFrom (pattern : Pattern) : (skip : Nat) → (before text : List Char) → List Hit
  | _, _, [] => []
  | skip + 1, before, c :: text => hitsFrom pattern skip (c :: before) text
  | 0, before, c :: text =>
    match pattern before (c :: text) with
    | none => hitsFrom pattern 0 (c :: before) text
    | some taken =>
      ⟨taken.lead.reverse ++ before, taken.word⟩
        :: hitsFrom pattern (taken.text.length - 1) (c :: before) text

def hits (pattern : Pattern) (source : List Char) : List Hit := hitsFrom pattern 0 [] source

/-- Within a match of the pattern no other begins. -/
def IsSeparate (pattern : Pattern) : Prop :=
  ∀ before text taken, pattern before text = some taken →
    ∃ rest, text = taken.text ++ rest ∧ ∀ a b, taken.text = a ++ b → a ≠ [] → b ≠ [] →
      pattern (a.reverse ++ before) (b ++ rest) = none

/-- A place where the pattern matches, be it found or not. -/
def Matches (pattern : Pattern) (before text : List Char) (hit : Hit) : Prop :=
  ∃ a b taken, text = a ++ b ∧ b ≠ [] ∧ pattern (a.reverse ++ before) b = some taken ∧
    hit = ⟨taken.lead.reverse ++ (a.reverse ++ before), taken.word⟩

section

variable {pattern : Pattern} {before text : List Char} {c : Char} {hit : Hit}

theorem matches_cons : Matches pattern before (c :: text) hit ↔
    (∃ taken, pattern before (c :: text) = some taken ∧
      hit = ⟨taken.lead.reverse ++ before, taken.word⟩) ∨
    Matches pattern (c :: before) text hit := by
  constructor
  · rintro ⟨a, b, taken, hsplit, hb, hread, hhit⟩
    cases a with
    | nil =>
      obtain rfl : c :: text = b := hsplit
      exact .inl ⟨taken, hread, hhit⟩
    | cons d a =>
      obtain ⟨rfl, rfl⟩ := List.cons.inj hsplit
      refine .inr ⟨a, b, taken, rfl, hb, ?_, ?_⟩
      · simpa using hread
      · simpa using hhit
  · rintro (⟨taken, hread, hhit⟩ | ⟨a, b, taken, rfl, hb, hread, hhit⟩)
    · exact ⟨[], c :: text, taken, rfl, List.cons_ne_nil _ _, hread, hhit⟩
    · refine ⟨c :: a, b, taken, rfl, hb, ?_, ?_⟩
      · simpa using hread
      · simpa using hhit

theorem not_matches_nil : ¬Matches pattern before [] hit := by
  rintro ⟨a, b, taken, hsplit, hb, -, -⟩
  exact hb (List.append_eq_nil_iff.mp hsplit.symm).2

/-- Behind the first character of a match, and before its end, nothing matches. -/
theorem IsSeparate.eq_none_behind (hpattern : IsSeparate pattern) {c : Char} {taken : Taken}
    (hread : pattern before (c :: text) = some taken) :
    ∀ a b, text = a ++ b → b ≠ [] → a.length < taken.text.length - 1 →
      pattern (a.reverse ++ c :: before) b = none := by
  intro a b hsplit hb ha
  obtain ⟨rest, htext, hseparate⟩ := hpattern _ _ _ hread
  have hjoin : taken.text ++ rest = (c :: a) ++ b := by
    rw [← htext, hsplit, List.cons_append]
  rcases List.append_eq_append_iff.mp hjoin with ⟨m, htaken, -⟩ | ⟨m, htaken, rfl⟩
  · have hlength := congrArg List.length htaken
    rw [List.length_append, List.length_cons] at hlength
    omega
  · have hm : m ≠ [] := by
      rintro rfl
      rw [htaken, List.append_nil, List.length_cons] at ha
      omega
    have hnone := hseparate (c :: a) m htaken (List.cons_ne_nil _ _) hm
    simpa using hnone

/-- The search finds every place, but for those that the match before has taken. -/
theorem mem_hitsFrom_iff (hpattern : IsSeparate pattern) {skip : Nat}
    (hskip : ∀ a b, text = a ++ b → b ≠ [] → a.length < skip →
      pattern (a.reverse ++ before) b = none) :
    hit ∈ hitsFrom pattern skip before text ↔ Matches pattern before text hit := by
  induction text generalizing skip before with
  | nil =>
    rw [hitsFrom]
    exact iff_of_false List.not_mem_nil not_matches_nil
  | cons c text ih =>
    -- within what was taken, and where nothing matches, the next place is looked at
    have hnext {n : Nat} (hnone : pattern before (c :: text) = none)
        (hn : ∀ a b, text = a ++ b → b ≠ [] → a.length < n →
          pattern (a.reverse ++ c :: before) b = none) :
        hit ∈ hitsFrom pattern n (c :: before) text ↔ Matches pattern before (c :: text) hit := by
      rw [ih hn, matches_cons, hnone]
      simp
    cases skip with
    | succ skip =>
      rw [hitsFrom]
      refine hnext (hskip [] (c :: text) rfl (List.cons_ne_nil _ _) (Nat.succ_pos _)) ?_
      intro a b hsplit hb ha
      have hread := hskip (c :: a) b (by rw [hsplit, List.cons_append]) hb
        (Nat.succ_lt_succ ha)
      simpa using hread
    | zero =>
      cases hread : pattern before (c :: text) with
      | none =>
        rw [hitsFrom, hread]
        exact hnext hread fun _ _ _ _ h => absurd h (Nat.not_lt_zero _)
      | some taken =>
        rw [hitsFrom, hread, List.mem_cons, ih (hpattern.eq_none_behind hread), matches_cons,
          hread]
        simp

theorem mem_hits_iff (hpattern : IsSeparate pattern) {source : List Char} :
    hit ∈ hits pattern source ↔ Matches pattern [] source hit :=
  mem_hitsFrom_iff hpattern fun _ _ _ _ h => absurd h (Nat.not_lt_zero _)

end

/-! ## What a search tells -/

/-- What passes the test among the matches of a pattern is what the search for `p` comes upon. -/
structure Finds (pattern : Pattern) (test : Hit → Bool)
    (p : (before text : List Char) → Bool) : Prop where
  separate : IsSeparate pattern
  sound : ∀ {before text taken}, pattern before text = some taken →
    test ⟨taken.lead.reverse ++ before, taken.word⟩ = true →
      ∃ rest, text = taken.lead ++ rest ∧ rest ≠ [] ∧ p (taken.lead.reverse ++ before) rest = true
  complete : ∀ {before text}, text ≠ [] → p before text = true →
    ∃ outer taken, before = taken.lead.reverse ++ outer ∧
      pattern outer (taken.lead ++ text) = some taken ∧ test ⟨before, taken.word⟩ = true

theorem Finds.any_hits {pattern : Pattern} {test : Hit → Bool}
    {p : (before text : List Char) → Bool} (h : Finds pattern test p) (source : List Char) :
    ((hits pattern source).any fun hit =>
      (regions source)[hit.before.length]? = some .code && test hit) = occursInCode p source := by
  rw [Bool.eq_iff_iff, List.any_eq_true, occursInCode, anyInCode_eq_true_iff]
  constructor
  · rintro ⟨hit, hhit, htest⟩
    obtain ⟨a, b, taken, rfl, -, hread, rfl⟩ := (mem_hits_iff h.separate).mp hhit
    rw [Bool.and_eq_true, decide_eq_true_eq] at htest
    obtain ⟨rest, rfl, hrest, hp⟩ := h.sound hread htest.2
    refine ⟨a ++ taken.lead, rest, by simp, hrest, ?_, by simpa using hp⟩
    simpa [Nat.add_comm] using htest.1
  · rintro ⟨a, b, rfl, hb, hcode, hp⟩
    obtain ⟨outer, taken, hbefore, hread, htest⟩ := h.complete hb hp
    rw [List.append_nil] at hbefore htest
    have ha : a = outer.reverse ++ taken.lead := by
      rw [← a.reverse_reverse, hbefore, List.reverse_append, List.reverse_reverse]
    refine ⟨⟨a.reverse, taken.word⟩, (mem_hits_iff h.separate).mpr
      ⟨outer.reverse, taken.lead ++ b, taken, by rw [ha, List.append_assoc],
        List.append_ne_nil_of_right_ne_nil _ hb, by simpa using hread, by simp [hbefore]⟩, ?_⟩
    simp [hcode, htest]

/-! ## Names and calls -/

theorem isWord_of_all {names : List (List Char)}
    (h : (names.all fun name => !name.isEmpty && name.all isWord) = true) :
    ∀ name ∈ names, name ≠ [] ∧ ∀ c ∈ name, isWord c = true := by
  intro name hname
  simpa using List.all_eq_true.mp h name hname

/-- One of the names, as a word. -/
def namePattern (names : List (List Char)) : Pattern := fun before text =>
  (names.find? fun name => (afterWord? name before text).isSome).map (⟨[], ·, []⟩)

/-- One of the names at the beginning of a word, and a parenthesis, maybe behind blanks. -/
def callPattern (names : List (List Char)) : Pattern := fun before text =>
  if wordBegins before then
    names.findSome? fun name => (dropStart? name text).bind fun rest =>
      if (trimStart rest).head? = some '(' then
        some ⟨[], name, rest.takeWhile isBlank ++ ['(']⟩
      else none
  else none

section Names

variable {names : List (List Char)} {before text word a : List Char}

theorem wordBegins_eq_false (ha : a ≠ []) (hword : ∀ c ∈ a, isWord c = true)
    (before : List Char) : wordBegins (a.reverse ++ before) = false := by
  obtain ⟨init, c, rfl⟩ := a.eq_nil_or_concat'.resolve_left ha
  have hc := hword c (by simp)
  simp [wordBegins, wordEnds, hc]

/-- A word is known by where it begins. -/
theorem eq_takeWhile_of_afterWord? (hword : ∀ c ∈ word, isWord c = true)
    (h : (afterWord? word before text).isSome = true) : word = text.takeWhile isWord := by
  rw [afterWord?_isSome, Bool.and_eq_true, Option.any_eq_true] at h
  obtain ⟨-, rest, hrest, hends⟩ := h
  have hstop : rest.takeWhile isWord = [] := by
    cases rest with
    | nil => rfl
    | cons c rest => exact List.takeWhile_cons_of_neg (by simpa [wordEnds] using hends)
  rw [dropStart?_eq_some_iff.mp hrest, List.takeWhile_append_of_pos hword, hstop, List.append_nil]

theorem namePattern_eq_some_iff (hnames : ∀ name ∈ names, ∀ c ∈ name, isWord c = true)
    {taken : Taken} : namePattern names before text = some taken ↔
      taken.word ∈ names ∧ (afterWord? taken.word before text).isSome = true ∧
        taken = ⟨[], taken.word, []⟩ := by
  rw [namePattern, Option.map_eq_some_iff]
  constructor
  · rintro ⟨name, hfind, rfl⟩
    have hword := List.find?_some hfind
    exact ⟨List.mem_of_find?_eq_some hfind, hword, rfl⟩
  · rintro ⟨hmem, hword, htaken⟩
    obtain ⟨name, hfind⟩ := Option.isSome_iff_exists.mp (List.find?_isSome
      (p := fun name => (afterWord? name before text).isSome) |>.mpr ⟨_, hmem, hword⟩)
    refine ⟨name, hfind, ?_⟩
    -- both names stand at the same place
    have hfound := List.find?_some hfind
    have hname := eq_takeWhile_of_afterWord? (hnames _ (List.mem_of_find?_eq_some hfind)) hfound
    rw [htaken, hname, ← eq_takeWhile_of_afterWord? (hnames _ hmem) hword]

theorem isSeparate_namePattern (hnames : ∀ name ∈ names, ∀ c ∈ name, isWord c = true) :
    IsSeparate (namePattern names) := by
  intro before text taken h
  obtain ⟨hmem, hword, htaken⟩ := (namePattern_eq_some_iff hnames).mp h
  rw [afterWord?_isSome, Bool.and_eq_true, Option.any_eq_true] at hword
  obtain ⟨-, rest, hrest, -⟩ := hword
  have htext : taken.text = taken.word := by
    rw [htaken]
    exact List.append_nil _
  refine ⟨rest, by rw [htext, dropStart?_eq_some_iff.mp hrest], fun a b hsplit ha _ => ?_⟩
  have hbegins := wordBegins_eq_false ha (fun c hc => hnames _ hmem c ?_) before
  · rw [namePattern, Option.map_eq_none_iff, List.find?_eq_none]
    intro name _
    rw [afterWord?_isSome, hbegins, Bool.false_and]
    exact Bool.false_ne_true
  · rw [← htext, hsplit]
    exact List.mem_append_left b hc

theorem finds_names (hnames : ∀ name ∈ names, ∀ c ∈ name, isWord c = true)
    (hne : ∀ name ∈ names, name ≠ []) (chosen : List Char → Bool) :
    Finds (namePattern names) (fun hit => !isMember hit.before && chosen hit.word)
      fun before text => names.any fun name =>
        chosen name && (!isMember before && (afterWord? name before text).isSome) where
  separate := isSeparate_namePattern hnames
  sound {before text taken} hread htest := by
    obtain ⟨hmem, hword, htaken⟩ := (namePattern_eq_some_iff hnames).mp hread
    rw [htaken] at htest ⊢
    rw [Bool.and_eq_true] at htest
    have htext : text ≠ [] := by
      rintro rfl
      rw [afterWord?_isSome, Bool.and_eq_true, Option.any_eq_true] at hword
      obtain ⟨-, rest, hrest, -⟩ := hword
      exact hne _ hmem (List.append_eq_nil_iff.mp (dropStart?_eq_some_iff.mp hrest).symm).1
    refine ⟨text, rfl, htext, List.any_eq_true.mpr ⟨taken.word, hmem, ?_⟩⟩
    simp only [List.reverse_nil, List.nil_append] at htest ⊢
    rw [htest.1, htest.2, hword]
    rfl
  complete {before text} _ hp := by
    obtain ⟨name, hmem, hp⟩ := List.any_eq_true.mp hp
    rw [Bool.and_eq_true, Bool.and_eq_true] at hp
    obtain ⟨hchosen, hmember, hword⟩ := hp
    refine ⟨before, ⟨[], name, []⟩, rfl,
      (namePattern_eq_some_iff hnames).mpr ⟨hmem, hword, rfl⟩, ?_⟩
    rw [hmember, hchosen]
    rfl

theorem of_callPattern {taken : Taken} (h : callPattern names before text = some taken) :
    wordBegins before = true ∧ taken.word ∈ names ∧ taken.lead = [] ∧ ∃ blanks rest,
      text = taken.word ++ (blanks ++ '(' :: rest) ∧ (∀ c ∈ blanks, isBlank c = true) ∧
        taken.tail = blanks ++ ['('] := by
  unfold callPattern at h
  split at h
  · next hbegins =>
    obtain ⟨name, hmem, hread⟩ := List.exists_of_findSome?_eq_some h
    obtain ⟨behind, hbehind, hread⟩ := Option.bind_eq_some_iff.mp hread
    split at hread
    · next hcalled =>
      obtain rfl := Option.some.inj hread
      obtain ⟨rest, hrest⟩ := List.head?_eq_some_iff.mp hcalled
      refine ⟨hbegins, hmem, rfl, behind.takeWhile isBlank, rest, ?_,
        fun c hc => List.mem_takeWhile_imp hc, rfl⟩
      have hsplit : behind.takeWhile isBlank ++ trimStart behind = behind :=
        List.takeWhile_append_dropWhile
      rw [← hrest, hsplit]
      exact dropStart?_eq_some_iff.mp hbehind
    · cases hread
  · cases h

theorem isSeparate_callPattern (hnames : ∀ name ∈ names, ∀ c ∈ name, isWord c = true)
    (hne : ∀ name ∈ names, name ≠ []) : IsSeparate (callPattern names) := by
  intro before text taken h
  obtain ⟨-, hmem, hlead, blanks, rest, htext, hblanks, htail⟩ := of_callPattern h
  have htaken : taken.text = taken.word ++ (blanks ++ ['(']) := by
    rw [Taken.text, hlead, htail, List.nil_append]
  refine ⟨rest, by simp [htaken, htext], fun a b hsplit ha hb => ?_⟩
  rw [Option.eq_none_iff_forall_not_mem]
  intro other hother
  obtain ⟨hbegins, hmem', -, blanks', rest', htext', -⟩ := of_callPattern hother
  rw [htaken] at hsplit
  rcases List.append_eq_append_iff.mp hsplit with ⟨m, -, hbehind⟩ | ⟨m, hword, -⟩
  · -- behind the name no other begins
    obtain ⟨c, b, rfl⟩ := List.exists_cons_of_ne_nil hb
    have hc : isWord c = false := by
      have hc : c ∈ blanks ++ ['('] := by simp [hbehind]
      rcases List.mem_append.mp hc with hc | hc
      · exact not_isWord_of_isBlank (hblanks c hc)
      · rw [List.mem_singleton.mp hc]
        decide
    obtain ⟨d, word, hother⟩ := List.exists_cons_of_ne_nil (hne _ hmem')
    have hd := hnames _ hmem' d (by simp [hother])
    rw [hother] at htext'
    rw [(List.cons.inj htext').1, hd] at hc
    cases hc
  · have hwithin := wordBegins_eq_false ha
      (fun c hc => hnames _ hmem c (by simp [hword, hc])) before
    rw [hwithin] at hbegins
    cases hbegins

theorem finds_calls (hnames : ∀ name ∈ names, ∀ c ∈ name, isWord c = true)
    (hne : ∀ name ∈ names, name ≠ []) :
    Finds (callPattern names) (fun hit => !isMember hit.before) fun before text =>
      wordBegins before && !isMember before && names.any fun name =>
        (dropStart? name text).any fun rest => (trimStart rest).head? = some '(' where
  separate := isSeparate_callPattern hnames hne
  sound {before text taken} hread htest := by
    obtain ⟨hbegins, hmem, hlead, blanks, rest, htext, hblanks, -⟩ := of_callPattern hread
    rw [hlead] at htest ⊢
    refine ⟨text, rfl, by simp [htext], ?_⟩
    have hcalled : (names.any fun name =>
        (dropStart? name text).any fun rest => (trimStart rest).head? = some '(') = true := by
      refine List.any_eq_true.mpr ⟨taken.word, hmem, ?_⟩
      rw [dropStart?_eq_some_iff.mpr htext, Option.any_some, trimStart,
        List.dropWhile_append_of_pos hblanks]
      rfl
    simp only [List.reverse_nil, List.nil_append] at htest ⊢
    rw [hbegins, htest, hcalled]
    rfl
  complete {before text} _ hp := by
    rw [Bool.and_eq_true, Bool.and_eq_true] at hp
    obtain ⟨⟨hbegins, hmember⟩, hcalled⟩ := hp
    obtain ⟨taken, htaken⟩ : ∃ taken, callPattern names before text = some taken := by
      rw [← Option.isSome_iff_exists, callPattern, if_pos hbegins, List.findSome?_isSome_iff]
      obtain ⟨name, hmem, hname⟩ := List.any_eq_true.mp hcalled
      obtain ⟨rest, hrest, hopens⟩ := Option.any_eq_true _ _ |>.mp hname
      refine ⟨name, hmem, ?_⟩
      rw [hrest, Option.bind_some, if_pos (of_decide_eq_true hopens)]
      rfl
    have hlead := (of_callPattern htaken).2.2.1
    exact ⟨before, taken, by rw [hlead]; rfl, by rw [hlead]; exact htaken, hmember⟩

end Names

/-! ## Declarations -/

def declarationKeywords : List (List Char) := ["import".toList, "export".toList]

def isGap (c : Char) : Bool := c = ' ' || c = '\t'

/-- The keyword of a declaration behind spaces and tabs. -/
def keywordBehind? (text : List Char) : Option Taken :=
  (declarationKeywords.find? fun keyword =>
    (dropStart? keyword (text.dropWhile isGap)).any wordEnds).map (⟨text.takeWhile isGap, ·, []⟩)

/-- The keyword of a declaration at the head of a line, or behind a semicolon. -/
def declarationPattern : Pattern := fun before text =>
  (if before.head?.all (· = '\n') then keywordBehind? text else none).or
    (if text.head? = some ';' then
      (keywordBehind? text.tail).map fun taken => { taken with lead := ';' :: taken.lead }
    else none)

section Declarations

variable {before text keyword gap rest : List Char} {taken : Taken}

theorem isWord_of_keyword (h : keyword ∈ declarationKeywords) :
    keyword ≠ [] ∧ ∀ c ∈ keyword, isWord c = true :=
  isWord_of_all (by decide) keyword h

theorem not_isGap_of_isWord {c : Char} (h : isWord c = true) : isGap c = false := by
  rw [← Bool.not_eq_true]
  intro hgap
  rw [isGap, Bool.or_eq_true, decide_eq_true_eq, decide_eq_true_eq] at hgap
  rcases hgap with rfl | rfl <;> exact absurd h (by decide)

theorem cut_at_keyword (hgap : ∀ c ∈ gap, isGap c = true) (hkeyword : keyword ∈ declarationKeywords)
    (rest : List Char) : (gap ++ (keyword ++ rest)).takeWhile isGap = gap ∧
      (gap ++ (keyword ++ rest)).dropWhile isGap = keyword ++ rest := by
  obtain ⟨hne, hword⟩ := isWord_of_keyword hkeyword
  obtain ⟨c, word, rfl⟩ := List.exists_cons_of_ne_nil hne
  have hc := not_isGap_of_isWord (hword c (List.mem_cons_self ..))
  rw [List.takeWhile_append_of_pos hgap, List.dropWhile_append_of_pos hgap, List.cons_append,
    List.takeWhile_cons_of_neg (by simp [hc]), List.dropWhile_cons_of_neg (by simp [hc]),
    List.append_nil]
  exact ⟨rfl, rfl⟩

theorem keywordBehind?_eq_some_iff : keywordBehind? text = some taken ↔
    ∃ gap keyword rest, text = gap ++ (keyword ++ rest) ∧ (∀ c ∈ gap, isGap c = true) ∧
      keyword ∈ declarationKeywords ∧ wordEnds rest = true ∧ taken = ⟨gap, keyword, []⟩ := by
  rw [keywordBehind?, Option.map_eq_some_iff]
  constructor
  · rintro ⟨keyword, hfind, rfl⟩
    have hread := List.find?_some hfind
    obtain ⟨rest, hrest, hends⟩ := Option.any_eq_true _ _ |>.mp hread
    refine ⟨_, keyword, rest, ?_, fun c hc => List.mem_takeWhile_imp hc,
      List.mem_of_find?_eq_some hfind, hends, rfl⟩
    rw [← dropStart?_eq_some_iff.mp hrest, List.takeWhile_append_dropWhile]
  · rintro ⟨gap, keyword, rest, rfl, hgap, hkeyword, hends, rfl⟩
    obtain ⟨htake, hdrop⟩ := cut_at_keyword hgap hkeyword rest
    rw [htake, hdrop]
    refine ⟨keyword, ?_, rfl⟩
    simp only [declarationKeywords, List.mem_cons, List.not_mem_nil, or_false] at hkeyword
    rcases hkeyword with rfl | rfl <;> simp [declarationKeywords, dropStart?, hends]

/-- A keyword behind blanks does not begin with a semicolon. -/
theorem keywordBehind?_semicolon (text : List Char) : keywordBehind? (';' :: text) = none := by
  rw [Option.eq_none_iff_forall_not_mem]
  intro taken htaken
  obtain ⟨gap, keyword, rest, htext, hgap, hkeyword, -⟩ := keywordBehind?_eq_some_iff.mp htaken
  cases gap with
  | nil =>
    obtain ⟨hne, hword⟩ := isWord_of_keyword hkeyword
    obtain ⟨c, word, rfl⟩ := List.exists_cons_of_ne_nil hne
    have hc := hword c (List.mem_cons_self ..)
    rw [← (List.cons.inj htext).1] at hc
    exact absurd hc (by decide)
  | cons c gap =>
    have hc := hgap c (List.mem_cons_self ..)
    rw [← (List.cons.inj htext).1] at hc
    exact absurd hc (by decide)

theorem declarationPattern_eq_some_iff : declarationPattern before text = some taken ↔
    ∃ gap keyword rest, (∀ c ∈ gap, isGap c = true) ∧ keyword ∈ declarationKeywords ∧
      wordEnds rest = true ∧
      (before.head?.all (· = '\n') = true ∧ text = gap ++ (keyword ++ rest) ∧
          taken = ⟨gap, keyword, []⟩ ∨
        text = ';' :: (gap ++ (keyword ++ rest)) ∧ taken = ⟨';' :: gap, keyword, []⟩) := by
  rw [declarationPattern, Option.or_eq_some_iff]
  constructor
  · rintro (hread | ⟨-, hread⟩)
    · split at hread
      · next hline =>
        obtain ⟨gap, keyword, rest, htext, hgap, hkeyword, hends, htaken⟩ :=
          keywordBehind?_eq_some_iff.mp hread
        exact ⟨gap, keyword, rest, hgap, hkeyword, hends, .inl ⟨hline, htext, htaken⟩⟩
      · cases hread
    · split at hread
      · next hsemicolon =>
        obtain ⟨inner, hinner, rfl⟩ := Option.map_eq_some_iff.mp hread
        obtain ⟨tail, rfl⟩ := List.head?_eq_some_iff.mp hsemicolon
        obtain ⟨gap, keyword, rest, htext, hgap, hkeyword, hends, rfl⟩ :=
          keywordBehind?_eq_some_iff.mp hinner
        exact ⟨gap, keyword, rest, hgap, hkeyword, hends,
          .inr ⟨congrArg (';' :: ·) htext, rfl⟩⟩
      · cases hread
  · rintro ⟨gap, keyword, rest, hgap, hkeyword, hends, ⟨hline, htext, htaken⟩ | ⟨rfl, rfl⟩⟩
    · refine .inl ?_
      rw [if_pos hline]
      exact keywordBehind?_eq_some_iff.mpr
        ⟨gap, keyword, rest, htext, hgap, hkeyword, hends, htaken⟩
    · refine .inr ⟨by rw [keywordBehind?_semicolon, ite_self], ?_⟩
      have hinner : keywordBehind? (gap ++ (keyword ++ rest)) = some ⟨gap, keyword, []⟩ :=
        keywordBehind?_eq_some_iff.mpr ⟨gap, keyword, rest, rfl, hgap, hkeyword, hends, rfl⟩
      rw [List.head?_cons, if_pos rfl, List.tail_cons, hinner]
      rfl

/-- Behind its first character a match has no line end and no semicolon. -/
theorem isSeparate_declarationPattern : IsSeparate declarationPattern := by
  intro before text taken h
  obtain ⟨gap, keyword, rest, hgap, hkeyword, -, hread⟩ := declarationPattern_eq_some_iff.mp h
  have hkept : ∀ c ∈ gap ++ keyword, c ≠ '\n' ∧ c ≠ ';' := by
    intro c hc
    rcases List.mem_append.mp hc with hc | hc
    · have hc := hgap c hc
      constructor <;> rintro rfl <;> exact absurd hc (by decide)
    · have hc := (isWord_of_keyword hkeyword).2 c hc
      constructor <;> rintro rfl <;> exact absurd hc (by decide)
  have htext : ∃ lead, taken.text = lead ++ (gap ++ keyword) ∧ text = taken.text ++ rest ∧
      (lead = [] ∨ lead = [';']) := by
    rcases hread with ⟨-, rfl, rfl⟩ | ⟨rfl, rfl⟩
    · exact ⟨[], by simp [Taken.text], by simp [Taken.text], .inl rfl⟩
    · exact ⟨[';'], by simp [Taken.text], by simp [Taken.text], .inr rfl⟩
  obtain ⟨lead, htaken, htext, hlead⟩ := htext
  refine ⟨rest, htext, fun a b hsplit ha hb => ?_⟩
  rw [htaken] at hsplit
  obtain ⟨init, last, rfl⟩ := a.eq_nil_or_concat'.resolve_left ha
  obtain ⟨c, b, rfl⟩ := List.exists_cons_of_ne_nil hb
  have hlast : last ≠ '\n' := by
    have hmem : last ∈ lead ++ (gap ++ keyword) := by simp [hsplit]
    rcases List.mem_append.mp hmem with hmem | hmem
    · rcases hlead with rfl | rfl
      · cases hmem
      · rw [List.mem_singleton.mp hmem]
        decide
    · exact (hkept last hmem).1
  have hc : c ≠ ';' := by
    refine (hkept c ?_).2
    rcases List.append_eq_append_iff.mp hsplit with ⟨m, -, hm⟩ | ⟨m, hm, hb⟩
    · simp [hm]
    · have hlength := congrArg List.length hm
      obtain rfl : m = [] := by
        rw [← List.length_eq_zero_iff]
        rcases hlead with rfl | rfl <;>
          simp only [List.length_append, List.length_cons, List.length_nil] at hlength <;> omega
      rw [List.nil_append] at hb
      simp [← hb]
  rw [Option.eq_none_iff_forall_not_mem]
  intro other hother
  obtain ⟨gap', keyword', rest', -, -, -, ⟨hline, -⟩ | ⟨hsemicolon, -⟩⟩ :=
    declarationPattern_eq_some_iff.mp hother
  · simp [hlast] at hline
  · exact hc (List.cons.inj hsemicolon).1

theorem isDeclarationHead_eq : isDeclarationHead before =
    (before.dropWhile isGap).head?.all fun c => c = '\n' || c = ';' := by
  have hgap : before.dropWhile (fun c => c = ' ' || c = '\t') = before.dropWhile isGap := rfl
  unfold isDeclarationHead
  rw [hgap]
  cases before.dropWhile isGap <;> rfl

/-- Where a declaration may stand, a word may begin. -/
theorem wordBegins_of_isDeclarationHead (h : isDeclarationHead before = true) :
    wordBegins before = true := by
  cases before with
  | nil => rfl
  | cons c before =>
    have hc : isWord c = false := by
      rw [← Bool.not_eq_true]
      intro hword
      have hgap := not_isGap_of_isWord hword
      rw [isDeclarationHead_eq, List.dropWhile_cons_of_neg (by simp [hgap]), List.head?_cons,
        Option.all_some, Bool.or_eq_true, decide_eq_true_eq, decide_eq_true_eq] at h
      rcases h with rfl | rfl <;> exact absurd hword (by decide)
    simp [wordBegins, wordEnds, hc]

theorem isDeclarationHead_append (hgap : ∀ c ∈ gap, isGap c = true)
    (h : before.head?.all (fun c => c = '\n' || c = ';') = true) :
    isDeclarationHead (gap.reverse ++ before) = true := by
  rw [isDeclarationHead_eq,
    List.dropWhile_append_of_pos fun c hc => hgap c (List.mem_reverse.mp hc)]
  cases before with
  | nil => rfl
  | cons c before =>
    have hc : isGap c = false := by
      simp only [List.head?_cons, Option.all_some, Bool.or_eq_true, decide_eq_true_eq] at h
      rcases h with rfl | rfl <;> decide
    rwa [List.dropWhile_cons_of_neg (by simp [hc])]

theorem isModuleDeclaration_iff : isModuleDeclaration before text = true ↔
    isDeclarationHead before = true ∧
      ∃ keyword ∈ declarationKeywords, ∃ rest, text = keyword ++ rest ∧ wordEnds rest = true := by
  rw [isModuleDeclaration, Bool.and_eq_true]
  refine and_congr_right fun hhead => ?_
  simp only [declarationKeywords, List.mem_cons, List.not_mem_nil, or_false, exists_eq_or_imp,
    exists_eq_left, afterWord?_isSome, wordBegins_of_isDeclarationHead hhead, Bool.true_and,
    Bool.or_eq_true, Option.any_eq_true, dropStart?_eq_some_iff]

/-- A match that ends with the keyword begins with the blanks in front of it, at the start of their
line, or with the semicolon in front of these. -/
theorem exists_declarationPattern {keyword rest : List Char}
    (hhead : isDeclarationHead before = true) (hkeyword : keyword ∈ declarationKeywords)
    (hends : wordEnds rest = true) :
    ∃ outer taken, before = taken.lead.reverse ++ outer ∧
      declarationPattern outer (taken.lead ++ (keyword ++ rest)) = some taken := by
  have hsplit : before.takeWhile isGap ++ before.dropWhile isGap = before :=
    List.takeWhile_append_dropWhile
  have hgap : ∀ c ∈ (before.takeWhile isGap).reverse, isGap c = true :=
    fun c hc => List.mem_takeWhile_imp (List.mem_reverse.mp hc)
  have hfound (hline : (before.dropWhile isGap).head?.all (· = '\n') = true) :
      ∃ outer taken, before = taken.lead.reverse ++ outer ∧
        declarationPattern outer (taken.lead ++ (keyword ++ rest)) = some taken := by
    refine ⟨before.dropWhile isGap, ⟨(before.takeWhile isGap).reverse, keyword, []⟩, ?_, ?_⟩
    · rw [List.reverse_reverse, hsplit]
    · exact declarationPattern_eq_some_iff.mpr
        ⟨_, keyword, rest, hgap, hkeyword, hends, .inl ⟨hline, rfl, rfl⟩⟩
  rw [isDeclarationHead_eq] at hhead
  cases hdrop : before.dropWhile isGap with
  | nil => exact hfound (by rw [hdrop]; rfl)
  | cons c outer =>
    rw [hdrop, List.head?_cons, Option.all_some, Bool.or_eq_true, decide_eq_true_eq,
      decide_eq_true_eq] at hhead
    rcases hhead with rfl | rfl
    · exact hfound (by rw [hdrop]; rfl)
    · refine ⟨outer, ⟨';' :: (before.takeWhile isGap).reverse, keyword, []⟩, ?_, ?_⟩
      · rw [List.reverse_cons, List.reverse_reverse, List.append_assoc, List.singleton_append,
          ← hdrop, hsplit]
      · exact declarationPattern_eq_some_iff.mpr
          ⟨_, keyword, rest, hgap, hkeyword, hends, .inr ⟨rfl, rfl⟩⟩

theorem finds_declarations : Finds declarationPattern (fun _ => true) isModuleDeclaration where
  separate := isSeparate_declarationPattern
  sound {before text taken} hread _ := by
    obtain ⟨gap, keyword, rest, hgap, hkeyword, hends, hcase⟩ :=
      declarationPattern_eq_some_iff.mp hread
    have hne : keyword ++ rest ≠ [] :=
      List.append_ne_nil_of_left_ne_nil (isWord_of_keyword hkeyword).1 _
    refine ⟨keyword ++ rest, ?_, hne, isModuleDeclaration_iff.mpr
      ⟨?_, keyword, hkeyword, rest, rfl, hends⟩⟩
    · rcases hcase with ⟨-, rfl, rfl⟩ | ⟨rfl, rfl⟩ <;> rfl
    · rcases hcase with ⟨hline, -, rfl⟩ | ⟨-, rfl⟩
      · refine isDeclarationHead_append hgap ?_
        cases hhead : before.head? with
        | none => rfl
        | some c =>
          rw [hhead, Option.all_some] at hline
          rw [Option.all_some, hline, Bool.true_or]
      · rw [List.reverse_cons, List.append_assoc]
        exact isDeclarationHead_append hgap rfl
  complete {before text} _ hp := by
    obtain ⟨hhead, keyword, hkeyword, rest, rfl, hends⟩ := isModuleDeclaration_iff.mp hp
    obtain ⟨outer, taken, hbefore, htaken⟩ := exists_declarationPattern hhead hkeyword hends
    exact ⟨outer, taken, hbefore, htaken, rfl⟩

end Declarations

/-! ## What is required -/

/-- The names of the host that are searched for. -/
def hostNames : List (List Char) :=
  ((Capability.all.filter (· ≠ .modules)).flatMap Capability.globals).map String.toList

/-- The capability that a name belongs to. -/
def capabilityOf? (name : List Char) : Option Capability :=
  Capability.all.find? fun capability => capability.globals.any (·.toList = name)

/-- Whether the matches in the code of a script ask for a capability. -/
def isMatched (source : List Char) : Capability → Bool
  | .modules =>
    ((hits declarationPattern source).any fun hit =>
        (regions source)[hit.before.length]? = some .code) ||
      (hits (callPattern ["require".toList, "import".toList]) source).any fun hit =>
        (regions source)[hit.before.length]? = some .code && !isMember hit.before
  | capability =>
    (hits (namePattern hostNames) source).any fun hit =>
      (regions source)[hit.before.length]? = some .code &&
        (!isMember hit.before && decide (capabilityOf? hit.word = some capability))

theorem occursInCode_any {α : Type} (names : List α)
    (p : α → (before text : List Char) → Bool) (source : List Char) :
    occursInCode (fun before text => names.any fun name => p name before text) source =
      names.any fun name => occursInCode (p name) source := by
  rw [Bool.eq_iff_iff, List.any_eq_true, occursInCode, anyInCode_eq_true_iff]
  simp only [occursInCode, anyInCode_eq_true_iff, List.any_eq_true]
  constructor
  · rintro ⟨a, b, hsplit, hb, hcode, name, hname, hp⟩
    exact ⟨name, hname, a, b, hsplit, hb, hcode, hp⟩
  · rintro ⟨name, hname, a, b, hsplit, hb, hcode, hp⟩
    exact ⟨a, b, hsplit, hb, hcode, name, hname, hp⟩

theorem filter_hostNames {capability : Capability} (h : capability ≠ .modules) :
    (hostNames.filter fun name => decide (capabilityOf? name = some capability)) =
      capability.globals.map String.toList := by
  cases capability
  case modules => exact absurd rfl h
  all_goals decide +kernel

theorem isWord_of_hostNames : ∀ name ∈ hostNames, name ≠ [] ∧ ∀ c ∈ name, isWord c = true :=
  isWord_of_all (by decide +kernel)

theorem isWord_of_loadName : ∀ name ∈ ["require".toList, "import".toList],
    name ≠ [] ∧ ∀ c ∈ name, isWord c = true :=
  isWord_of_all (by decide)

theorem isRequired_of_ne_modules {capability : Capability} (h : capability ≠ .modules)
    (source : List Char) :
    capability.isRequired source = capability.globals.any (Capability.mentions source) := by
  cases capability
  case modules => exact absurd rfl h
  all_goals rfl

/-- The matches ask for what is required. -/
theorem isMatched_eq (source : List Char) (capability : Capability) :
    isMatched source capability = capability.isRequired source := by
  by_cases hmodules : capability = .modules
  · subst hmodules
    have hcalls := finds_calls (fun name hname => (isWord_of_loadName name hname).2)
      fun name hname => (isWord_of_loadName name hname).1
    have hdeclarations := finds_declarations.any_hits source
    simp only [Bool.and_true] at hdeclarations
    rw [isMatched, hdeclarations, hcalls.any_hits]
    rfl
  · have hnames := finds_names (fun name hname => (isWord_of_hostNames name hname).2)
      (fun name hname => (isWord_of_hostNames name hname).1)
      fun name => decide (capabilityOf? name = some capability)
    have hmatched : isMatched source capability = occursInCode (fun before text =>
        hostNames.any fun name => decide (capabilityOf? name = some capability) &&
          (!isMember before && (afterWord? name before text).isSome)) source := by
      rw [← hnames.any_hits]
      cases capability
      case modules => exact absurd rfl hmodules
      all_goals rfl
    -- of all names, those of the capability are left
    have hchosen : (fun before text => hostNames.any fun name =>
          decide (capabilityOf? name = some capability) &&
            (!isMember before && (afterWord? name before text).isSome)) =
        fun before text => capability.globals.any fun global =>
          !isMember before && (afterWord? global.toList before text).isSome := by
      funext before text
      rw [← List.any_filter, filter_hostNames hmodules, List.any_map]
      rfl
    rw [hmatched, isRequired_of_ne_modules hmodules, hchosen, occursInCode_any]
    rfl

end SnippetRunner.Script
