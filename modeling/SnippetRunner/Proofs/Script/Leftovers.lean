import SnippetRunner.Proofs.Script.ModuleDetection

/-
  What normalizing leaves. Each pass finds the declarations of one form from left to right, without
  overlap, and replaces those that begin in code. So a declaration in code is left in two ways
  only: one that begins outside the code runs over it, or a pass that came later has brought it
  about. `normalize_leftovers` says so of every declaration in the code of a normalized script,
  and traces it back through the passes to the one that left it.
-/
namespace SnippetRunner.Script

open SnippetRunner.Text SnippetRunner.Source

/-- A declaration of the form begins in the code of `text` at `place`. -/
def declaredAt (form : Form) (text : List Char) (place : Nat) : Bool :=
  (regions text)[place]? = some .code && declares form (text.take place).reverse (text.drop place)

/-- A declaration of the form that begins before `place`, outside the code, runs over the `count`
characters from there on. -/
def RunOver (form : Form) (text : List Char) (place count : Nat) : Prop :=
  ∃ start declaration rest, start < place ∧ (regions text)[start]? ≠ some .code ∧
    wordBegins (text.take start).reverse = true ∧
    form.read? (text.drop start) = some (declaration, rest) ∧
    place + count ≤ text.length - rest.length

/-! ## The trace of a pass -/

/-- What a pass makes of `text`, which begins at `place`: each character, and the place from which
it was kept, unless the pass has written it. -/
def tracedFrom (form : Form) (afterWord : Bool) (ahead : Ahead) (place : Nat) :
    List Char → List Region → List (Char × Option Nat)
  | c :: text, region :: regions =>
    match ahead with
    | .kept (count + 1) =>
      (c, some place) :: tracedFrom form (isWord c) (.kept count) (place + 1) text regions
    | .replaced (count + 1) =>
      tracedFrom form (isWord c) (.replaced count) (place + 1) text regions
    | _ =>
      match if afterWord then none else form.read? (c :: text) with
      | none => (c, some place) :: tracedFrom form (isWord c) .nothing (place + 1) text regions
      | some (declaration, rest) =>
        let count := text.length - rest.length
        if region = .code then
          (replacement declaration (c :: text) rest).map (·, none)
            ++ tracedFrom form (isWord c) (.replaced count) (place + 1) text regions
        else (c, some place) :: tracedFrom form (isWord c) (.kept count) (place + 1) text regions
  | _, _ => []

def traced (form : Form) (text : List Char) : List (Char × Option Nat) :=
  tracedFrom form false .nothing 0 text (regions text)

/-- The pass keeps the character at place `i` of `text`, which then stands at place `k`. -/
def Retains (form : Form) (text : List Char) (i k : Nat) : Prop :=
  (traced form text)[k]?.bind Prod.snd = some i

section

variable {form : Form} {afterWord : Bool} {place : Nat} {c : Char} {text rest : List Char}
  {region : Region} {regions : List Region} {d : Declaration}

theorem tracedFrom_of_none
    (h : (if afterWord then none else form.read? (c :: text)) = none) :
    tracedFrom form afterWord .nothing place (c :: text) (region :: regions) =
      (c, some place) :: tracedFrom form (isWord c) .nothing (place + 1) text regions := by
  rw [tracedFrom]
  · rw [h]
  · exact fun _ e => by cases e
  · exact fun _ e => by cases e

theorem tracedFrom_of_some (region : Region) (regions : List Region)
    (h : (if afterWord then none else form.read? (c :: text)) = some (d, rest)) :
    tracedFrom form afterWord .nothing place (c :: text) (region :: regions) =
      if region = .code then
        (replacement d (c :: text) rest).map (·, none) ++
          tracedFrom form (isWord c) (.replaced (text.length - rest.length)) (place + 1) text
            regions
      else (c, some place) ::
        tracedFrom form (isWord c) (.kept (text.length - rest.length)) (place + 1) text
          regions := by
  rw [tracedFrom]
  · rw [h]
  · exact fun _ e => by cases e
  · exact fun _ e => by cases e

/-- The trace of a pass is one of what the pass makes of the text. -/
theorem map_fst_tracedFrom {ahead : Ahead} (hlength : regions.length = text.length) :
    (tracedFrom form afterWord ahead place text regions).map Prod.fst =
      replaceFrom form afterWord ahead text regions := by
  induction text generalizing afterWord ahead place regions with
  | nil =>
    rw [List.length_eq_zero_iff.mp hlength]
    rfl
  | cons c text ih =>
    obtain ⟨region, regions, rfl⟩ := List.exists_cons_of_length_eq_add_one hlength
    have ih (ahead : Ahead) (place : Nat) :
        (tracedFrom form (isWord c) ahead place text regions).map Prod.fst =
          replaceFrom form (isWord c) ahead text regions :=
      ih (by simpa using hlength)
    have hnothing : (tracedFrom form afterWord .nothing place (c :: text)
        (region :: regions)).map Prod.fst =
          replaceFrom form afterWord .nothing (c :: text) (region :: regions) := by
      cases hread : if afterWord then none else form.read? (c :: text) with
      | none => rw [tracedFrom_of_none hread, replaceFrom_of_none hread, List.map_cons, ih]
      | some read =>
        obtain ⟨d, rest⟩ := read
        rw [tracedFrom_of_some region regions hread, replaceFrom_of_some region regions hread]
        split
        · rw [List.map_append, ih, List.map_map]
          exact congrArg (· ++ _) (List.map_id _)
        · rw [List.map_cons, ih]
    cases ahead with
    | nothing => exact hnothing
    | kept n =>
      cases n with
      | zero => exact hnothing
      | succ n => rw [tracedFrom, replaceFrom, List.map_cons, ih]
    | replaced n =>
      cases n with
      | zero => exact hnothing
      | succ n => rw [tracedFrom, replaceFrom, ih]

/-- What the pass makes of the character `c` at `place`, in front of `text`, and how it goes on. -/
inductive PassStep (form : Form) (afterWord : Bool) (place : Nat) (c : Char) (text : List Char)
    (region : Region) : Ahead → List (Char × Option Nat) → Ahead → Prop
  | kept (n : Nat) :
      PassStep form afterWord place c text region (.kept (n + 1)) [(c, some place)] (.kept n)
  | replaced (n : Nat) :
      PassStep form afterWord place c text region (.replaced (n + 1)) [] (.replaced n)
  | unread (ahead : Ahead) (hread : (if afterWord then none else form.read? (c :: text)) = none) :
      PassStep form afterWord place c text region ahead [(c, some place)] .nothing
  | inCode {d : Declaration} {rest : List Char} (ahead : Ahead) (hregion : region = .code)
      (hword : afterWord = false) (hread : form.read? (c :: text) = some (d, rest)) :
      PassStep form afterWord place c text region ahead
        ((replacement d (c :: text) rest).map (·, none)) (.replaced (text.length - rest.length))
  | outside {d : Declaration} {rest : List Char} (ahead : Ahead) (hregion : region ≠ .code)
      (hword : afterWord = false) (hread : form.read? (c :: text) = some (d, rest)) :
      PassStep form afterWord place c text region ahead [(c, some place)]
        (.kept (text.length - rest.length))

/-- The trace of a pass is a step at the first character, and the trace of what follows it. -/
theorem exists_passStep (form : Form) (afterWord : Bool) (ahead : Ahead) (place : Nat) (c : Char)
    (text : List Char) (region : Region) (regions : List Region) :
    ∃ written next, PassStep form afterWord place c text region ahead written next ∧
      tracedFrom form afterWord ahead place (c :: text) (region :: regions) =
        written ++ tracedFrom form (isWord c) next (place + 1) text regions := by
  have hfree (ahead : Ahead)
      (hahead : tracedFrom form afterWord ahead place (c :: text) (region :: regions) =
        tracedFrom form afterWord .nothing place (c :: text) (region :: regions)) :
      ∃ written next, PassStep form afterWord place c text region ahead written next ∧
        tracedFrom form afterWord ahead place (c :: text) (region :: regions) =
          written ++ tracedFrom form (isWord c) next (place + 1) text regions := by
    rw [hahead]
    cases hread : if afterWord then none else form.read? (c :: text) with
    | none => exact ⟨_, _, .unread ahead hread, tracedFrom_of_none hread⟩
    | some read =>
      obtain ⟨d, rest⟩ := read
      rw [tracedFrom_of_some region regions hread]
      split at hread
      · cases hread
      · next hword =>
        have hword : afterWord = false := by simpa using hword
        split
        · next hregion => exact ⟨_, _, .inCode ahead hregion hword hread, rfl⟩
        · next hregion => exact ⟨_, _, .outside ahead hregion hword hread, rfl⟩
  cases ahead with
  | nothing => exact hfree .nothing rfl
  | kept n =>
    cases n with
    | zero => exact hfree (.kept 0) rfl
    | succ n => exact ⟨_, _, .kept n, by rw [tracedFrom]; rfl⟩
  | replaced n =>
    cases n with
    | zero => exact hfree (.replaced 0) rfl
    | succ n => exact ⟨_, _, .replaced n, by rw [tracedFrom]; rfl⟩

/-- Whatever else a step writes, it keeps only the character it is made at. -/
theorem PassStep.of_mem {written : List (Char × Option Nat)} {ahead next : Ahead} {b : Char}
    {i : Nat} (h : PassStep form afterWord place c text region ahead written next)
    (hmem : (b, some i) ∈ written) : b = c ∧ i = place := by
  cases h with
  | replaced => cases hmem
  | inCode => simp at hmem
  | _ =>
    obtain ⟨hb, hi⟩ := Prod.mk.inj (List.mem_singleton.mp hmem)
    exact ⟨hb, Option.some.inj hi⟩

/-- What is kept is a character of the text. -/
theorem getElem?_of_mem_tracedFrom {ahead : Ahead} {i : Nat}
    (h : (c, some i) ∈ tracedFrom form afterWord ahead place text regions) :
    place ≤ i ∧ text[i - place]? = some c := by
  induction text generalizing afterWord ahead place regions with
  | nil => simp [tracedFrom] at h
  | cons d text ih =>
    cases regions with
    | nil => simp [tracedFrom] at h
    | cons region regions =>
      obtain ⟨written, next, hstep, htrace⟩ :=
        exists_passStep form afterWord ahead place d text region regions
      rw [htrace] at h
      rcases List.mem_append.mp h with h | h
      · obtain ⟨rfl, rfl⟩ := hstep.of_mem h
        simp
      · obtain ⟨hle, hchar⟩ := ih h
        refine ⟨by omega, ?_⟩
        rw [show i - place = i - (place + 1) + 1 by omega, List.getElem?_cons_succ, hchar]

/-- Where the pass finds nothing to replace it keeps every character in its place. -/
theorem tracedFrom_eq_zipIdx {before : List Char} {ahead : Ahead}
    (h : anyInCode (declares form) before text regions = false)
    (hlength : regions.length = text.length) (hahead : ∀ n, ahead ≠ .replaced n) :
    tracedFrom form (before.head?.any isWord) ahead place text regions =
      (text.zipIdx place).map fun (c, i) => (c, some i) := by
  induction text generalizing before regions ahead place with
  | nil =>
    rw [List.length_eq_zero_iff.mp hlength]
    rfl
  | cons c text ih =>
    obtain ⟨region, regions, rfl⟩ := List.exists_cons_of_length_eq_add_one hlength
    rw [anyInCode, Bool.or_eq_false_iff] at h
    obtain ⟨hhead, htail⟩ := h
    obtain ⟨written, next, hstep, htrace⟩ :=
      exists_passStep form (before.head?.any isWord) ahead place c text region regions
    have hkeeps : written = [(c, some place)] ∧ ∀ n, next ≠ .replaced n := by
      cases hstep with
      | kept => exact ⟨rfl, by simp⟩
      | replaced n => exact absurd rfl (hahead (n + 1))
      | unread => exact ⟨rfl, by simp⟩
      | inCode _ hregion hword hread =>
        simp [declares, wordBegins, wordEnds, hregion, hword, hread] at hhead
      | outside => exact ⟨rfl, by simp⟩
    have hrest : tracedFrom form (isWord c) next (place + 1) text regions =
        (text.zipIdx (place + 1)).map fun (c, i) => (c, some i) :=
      ih htail (by simpa using hlength) hkeeps.2
    rw [htrace, hkeeps.1, hrest, List.zipIdx_cons, List.map_cons]
    rfl

end

/-! ## One pass -/

section

variable {form : Form} {source : List Char} {i k : Nat} {c : Char}

theorem RunOver.next {place count : Nat} (h : RunOver form source place (count + 1)) :
    RunOver form source (place + 1) count := by
  obtain ⟨start, d, rest, hlt, hregion, hbegins, hread, hle⟩ := h
  exact ⟨start, d, rest, by omega, hregion, hbegins, hread, by omega⟩

theorem RunOver.one {place count : Nat} (h : RunOver form source place (count + 1)) :
    RunOver form source place 1 := by
  obtain ⟨start, d, rest, hlt, hregion, hbegins, hread, hle⟩ := h
  exact ⟨start, d, rest, hlt, hregion, hbegins, hread, by omega⟩

/-- A place at which the source is cut. -/
theorem declaredAt_append {seen text : List Char} {seenRegions later : List Region}
    {region : Region} (hsource : source = seen ++ text)
    (hregions : regions source = seenRegions ++ region :: later)
    (hseen : seenRegions.length = seen.length) :
    declaredAt form source seen.length =
      (decide (region = .code) && declares form seen.reverse text) := by
  have hregion : (regions source)[seen.length]? = some region := by
    rw [hregions, ← hseen, List.getElem?_append_right le_rfl, Nat.sub_self]
    rfl
  have htake : source.take seen.length = seen := by rw [hsource, List.take_left]
  have hdrop : source.drop seen.length = text := by rw [hsource, List.drop_left]
  simp only [declaredAt, hregion, htake, hdrop, Option.some.injEq]

/-- A step that keeps the first character of a declaration in the code runs over it, and what a
step goes on to keep is run over as well. -/
theorem PassStep.runOver {seen text : List Char} {seenRegions later : List Region}
    {region : Region} {written : List (Char × Option Nat)} {ahead next : Ahead}
    (h : PassStep form (seen.getLast?.any isWord) seen.length c text region ahead written next)
    (hsource : source = seen ++ c :: text)
    (hregions : regions source = seenRegions ++ region :: later)
    (hseen : seenRegions.length = seen.length)
    (hahead : ∀ n, ahead = .kept (n + 1) → RunOver form source seen.length (n + 1)) :
    ((c, some seen.length) ∈ written → declaredAt form source seen.length = true →
        RunOver form source seen.length 1) ∧
      ∀ n, next = .kept (n + 1) → RunOver form source (seen.length + 1) (n + 1) := by
  have hbegins (hword : seen.getLast?.any isWord = false) : wordBegins seen.reverse = true := by
    rw [wordBegins, wordEnds, List.head?_reverse, hword]
    rfl
  rw [declaredAt_append hsource hregions hseen, Bool.and_eq_true, decide_eq_true_eq]
  cases h with
  | kept n =>
    refine ⟨fun _ _ => (hahead n rfl).one, fun m hm => ?_⟩
    rw [← Ahead.kept.inj hm]
    exact (hahead n rfl).next
  | replaced n => exact ⟨fun hmem => absurd hmem List.not_mem_nil, fun m hm => by cases hm⟩
  | unread _ hread =>
    refine ⟨fun _ hdeclared => ?_, fun m hm => by cases hm⟩
    -- nothing is read here, so nothing is declared
    obtain ⟨-, hdeclares⟩ := hdeclared
    rw [declares, wordBegins, wordEnds, List.head?_reverse, Bool.and_eq_true,
      Bool.not_eq_true'] at hdeclares
    rw [hdeclares.1, if_neg (by decide)] at hread
    rw [hread] at hdeclares
    cases hdeclares.2
  | inCode _ _ _ _ => exact ⟨fun hmem => by simp at hmem, fun m hm => by cases hm⟩
  | @outside declaration rest _ hregion hword hread =>
    refine ⟨fun _ hdeclared => absurd hdeclared.1 hregion, fun m hm => ?_⟩
    -- the declaration begins outside the code, and runs over what follows
    have hcount := Ahead.kept.inj hm
    have hlength := congrArg List.length hsource
    rw [List.length_append, List.length_cons] at hlength
    refine ⟨seen.length, declaration, rest, Nat.lt_succ_self _, ?_, ?_, ?_, by omega⟩
    · rw [hregions, ← hseen, List.getElem?_append_right le_rfl, Nat.sub_self]
      simpa using hregion
    · rw [hsource, List.take_left, hbegins hword]
    · rw [hsource, List.drop_left]
      exact hread

theorem runOver_of_mem_tracedFrom {seen text : List Char} {seenRegions later : List Region}
    {ahead : Ahead} (hsource : source = seen ++ text)
    (hregions : regions source = seenRegions ++ later) (hseen : seenRegions.length = seen.length)
    (hahead : ∀ n, ahead = .kept (n + 1) → RunOver form source seen.length (n + 1))
    (h : (c, some i) ∈ tracedFrom form (seen.getLast?.any isWord) ahead seen.length text later)
    (hdeclared : declaredAt form source i = true) : RunOver form source i 1 := by
  induction text generalizing seen seenRegions later ahead with
  | nil => simp [tracedFrom] at h
  | cons d text ih =>
    cases later with
    | nil => simp [tracedFrom] at h
    | cons region later =>
      obtain ⟨written, next, hstep, htrace⟩ :=
        exists_passStep form (seen.getLast?.any isWord) ahead seen.length d text region later
      obtain ⟨hhere, hnext⟩ := hstep.runOver hsource hregions hseen hahead
      rw [htrace, List.mem_append] at h
      rcases h with hmem | h
      · obtain ⟨rfl, rfl⟩ := hstep.of_mem hmem
        exact hhere hmem hdeclared
      · have hsource' : source = (seen ++ [d]) ++ text := by simp [hsource]
        have hregions' : regions source = (seenRegions ++ [region]) ++ later := by simp [hregions]
        have hnext' : ∀ n, next = .kept (n + 1) →
            RunOver form source (seen ++ [d]).length (n + 1) := by simpa using hnext
        have h' : (c, some i) ∈ tracedFrom form ((seen ++ [d]).getLast?.any isWord) next
            (seen ++ [d]).length text later := by simpa using h
        exact ih hsource' hregions' (by simp [hseen]) hnext' h'

theorem exists_mem_traced (h : Retains form source i k) :
    ∃ c, (c, some i) ∈ traced form source := by
  obtain ⟨⟨c, origin⟩, hget, horigin⟩ := Option.bind_eq_some_iff.mp h
  obtain rfl : origin = some i := horigin
  exact ⟨c, List.mem_of_getElem? hget⟩

/-- A declaration in the code that a pass of its form retains is run over by one outside the
code. -/
theorem runOver_of_retains (h : Retains form source i k)
    (hdeclared : declaredAt form source i = true) : RunOver form source i 1 := by
  obtain ⟨c, hmem⟩ := exists_mem_traced h
  have hsource : source = [] ++ source := rfl
  have hregions : regions source = [] ++ regions source := rfl
  exact runOver_of_mem_tracedFrom hsource hregions rfl (fun _ hn => by cases hn) hmem hdeclared

theorem map_fst_traced (form : Form) (source : List Char) :
    (traced form source).map Prod.fst = replaceForm source form :=
  map_fst_tracedFrom (length_regions source)

/-- The trace tells where a character of the text has come to stand. -/
theorem getElem?_of_retains (h : Retains form source i k) :
    ∃ c, (replaceForm source form)[k]? = some c ∧ source[i]? = some c := by
  obtain ⟨⟨c, origin⟩, hget, horigin⟩ := Option.bind_eq_some_iff.mp h
  obtain rfl : origin = some i := horigin
  refine ⟨c, ?_, (getElem?_of_mem_tracedFrom (List.mem_of_getElem? hget)).2⟩
  rw [← map_fst_traced, List.getElem?_map]
  exact congrArg (Option.map Prod.fst) hget

theorem occursInCode_declares_iff :
    occursInCode (declares form) source = true ↔ ∃ place, declaredAt form source place = true := by
  rw [occursInCode, anyInCode_eq_true_iff]
  constructor
  · rintro ⟨a, b, rfl, -, hregion, hp⟩
    refine ⟨a.length, ?_⟩
    rw [List.append_nil] at hp
    rw [declaredAt, hregion, List.take_left, List.drop_left, hp]
    rfl
  · rintro ⟨place, h⟩
    rw [declaredAt, Bool.and_eq_true, decide_eq_true_eq] at h
    obtain ⟨hlt, -⟩ := List.getElem?_eq_some_iff.mp h.1
    rw [length_regions] at hlt
    refine ⟨source.take place, source.drop place, (List.take_append_drop ..).symm, ?_, ?_, ?_⟩
    · rw [Ne, List.drop_eq_nil_iff]
      omega
    · rw [List.length_take, Nat.min_eq_left hlt.le]
      exact h.1
    · rw [List.append_nil]
      exact h.2

/-- A pass that replaces nothing retains every character in its place. -/
theorem retains_self (h : ∀ place, declaredAt form source place = false) (hi : i < source.length) :
    Retains form source i i := by
  have hnone : anyInCode (declares form) [] source (regions source) = false := by
    rw [← Bool.not_eq_true]
    intro hoccurs
    obtain ⟨place, hplace⟩ := occursInCode_declares_iff.mp hoccurs
    rw [h place] at hplace
    cases hplace
  have htraced : traced form source = (source.zipIdx 0).map fun (c, i) => (c, some i) :=
    tracedFrom_eq_zipIdx hnone (length_regions source) nofun
  rw [Retains, htraced, List.getElem?_map, List.getElem?_zipIdx, List.getElem?_eq_getElem hi]
  simp

end

/-! ## All passes -/

/-- The passes keep the character at place `i` of `text`, which then stands at place `k`. -/
def RetainsThrough : List Form → List Char → Nat → Nat → Prop
  | [], _, i, k => i = k
  | form :: forms, text, i, k =>
    ∃ m, Retains form text i m ∧ RetainsThrough forms (replaceForm text form) m k

/-- The pass leaves a declaration of the form in code at `place` that it has not kept from one in
the code of `text`: it has written the first character, or changed what stands around it. -/
def BringsAbout (pass form : Form) (text : List Char) (place : Nat) : Prop :=
  declaredAt form (replaceForm text pass) place = true ∧
    ∀ i, Retains pass text i place → declaredAt form text i = false

theorem RetainsThrough.concat {forms : List Form} {form : Form} {text : List Char} {i m k : Nat}
    (h : RetainsThrough forms text i m) (hlast : Retains form (forms.foldl replaceForm text) m k) :
    RetainsThrough (forms ++ [form]) text i k := by
  induction forms generalizing text i with
  | nil =>
    obtain rfl : i = m := h
    exact ⟨k, hlast, rfl⟩
  | cons first forms ih =>
    obtain ⟨n, hfirst, hlater⟩ := h
    exact ⟨n, hfirst, ih hlater hlast⟩

/-- Only a pass that replaces something brings a declaration about. -/
theorem BringsAbout.exists_declaredAt {pass form : Form} {text : List Char} {place : Nat}
    (h : BringsAbout pass form text place) : ∃ start, declaredAt pass text start = true := by
  by_contra hnone
  have hnone : ∀ start, declaredAt pass text start = false := by simpa using hnone
  have hself : replaceForm text pass = text := by
    have hpass : [pass].foldl replaceForm text = replaceForm text pass := rfl
    rw [← hpass]
    refine foldl_replaceForm_eq_self fun form hform => ?_
    rw [List.mem_singleton.mp hform, ← Bool.not_eq_true]
    intro hoccurs
    obtain ⟨start, hstart⟩ := occursInCode_declares_iff.mp hoccurs
    rw [hnone start] at hstart
    cases hstart
  obtain ⟨hdeclared, hnew⟩ := h
  rw [hself] at hdeclared
  have hlt : place < text.length := by
    rw [declaredAt, Bool.and_eq_true, decide_eq_true_eq] at hdeclared
    rw [← length_regions]
    exact (List.getElem?_eq_some_iff.mp hdeclared.1).1
  rw [hnew place (retains_self hnone hlt)] at hdeclared
  cases hdeclared

/-- A declaration in code that the passes leave is traced back to the last pass that brought it
about, or to that of its own form, which was kept from it. -/
theorem exists_cause {forms : List Form} {form : Form} {source : List Char} {place : Nat}
    (hform : form ∈ forms)
    (h : declaredAt form (forms.foldl replaceForm source) place = true) :
    ∃ earlier pass later i, forms = earlier ++ pass :: later ∧ form ∉ later ∧
      RetainsThrough later (replaceForm (earlier.foldl replaceForm source) pass) i place ∧
      (BringsAbout pass form (earlier.foldl replaceForm source) i ∨
        pass = form ∧ ∃ j, Retains pass (earlier.foldl replaceForm source) j i ∧
          declaredAt form (earlier.foldl replaceForm source) j = true) := by
  induction forms using List.reverseRecOn generalizing place with
  | nil => cases hform
  | append_singleton forms last ih =>
    rw [List.foldl_append] at h
    by_cases hkept : ∃ i, Retains last (forms.foldl replaceForm source) i place ∧
        declaredAt form (forms.foldl replaceForm source) i = true
    · obtain ⟨i, hretains, hdeclared⟩ := hkept
      by_cases hlast : last = form
      · exact ⟨forms, last, [], place, rfl, List.not_mem_nil, rfl,
          Or.inr ⟨hlast, i, hretains, hdeclared⟩⟩
      · have hform : form ∈ forms := by
          rcases List.mem_append.mp hform with hform | hform
          · exact hform
          · exact absurd (List.mem_singleton.mp hform).symm hlast
        obtain ⟨earlier, pass, later, j, rfl, hnot, hthrough, hcause⟩ := ih hform hdeclared
        refine ⟨earlier, pass, later ++ [last], j, by simp, ?_, hthrough.concat ?_, hcause⟩
        · simp [hnot, Ne.symm hlast]
        · rw [List.foldl_append] at hretains
          exact hretains
    · refine ⟨forms, last, [], place, rfl, List.not_mem_nil, rfl, Or.inl ⟨h, fun i hi => ?_⟩⟩
      by_contra hdeclared
      exact hkept ⟨i, hi, by simpa using hdeclared⟩

/-- A pass makes of a text what its trace says, and what it retains are characters of the text. A
declaration in the code of a text stands no longer after the pass of its form, unless one that
begins outside the code runs over its first character. So what is still declared in the code
of a normalized script was run over in the pass of its form, or brought about in that pass or a
later one by declarations that were replaced; if nothing is, normalizing again changes nothing. -/
theorem normalize_leftovers (source : List Char) :
    (∀ form text, (traced form text).map Prod.fst = replaceForm text form ∧
      ∀ i k, Retains form text i k →
        ∃ c, (replaceForm text form)[k]? = some c ∧ text[i]? = some c) ∧
    (∀ form text place, declaredAt form text place = true →
      RunOver form text place 1 ∨ ∀ k, ¬Retains form text place k) ∧
    (∀ form place, declaredAt form (normalize source) place = true →
      ∃ earlier pass later i, Form.all = earlier ++ pass :: later ∧ form ∉ later ∧
        RetainsThrough later (replaceForm (earlier.foldl replaceForm source) pass) i place ∧
        (pass = form ∧ (∃ j, Retains pass (earlier.foldl replaceForm source) j i ∧
            RunOver form (earlier.foldl replaceForm source) j 1) ∨
          BringsAbout pass form (earlier.foldl replaceForm source) i ∧
            ∃ start, declaredAt pass (earlier.foldl replaceForm source) start = true)) ∧
    ((∀ form place, declaredAt form (normalize source) place = false) →
      normalize (normalize source) = normalize source) := by
  refine ⟨fun form text => ⟨map_fst_traced form text, fun _ _ => getElem?_of_retains⟩,
    fun form text place hdeclared => ?_, fun form place hdeclared => ?_, fun hnone => ?_⟩
  · by_cases hkept : ∃ k, Retains form text place k
    · obtain ⟨k, hretains⟩ := hkept
      exact Or.inl (runOver_of_retains hretains hdeclared)
    · exact Or.inr (by simpa using hkept)
  · obtain ⟨earlier, pass, later, i, hall, hnot, hthrough, hcause⟩ :=
      exists_cause form.mem_all hdeclared
    refine ⟨earlier, pass, later, i, hall, hnot, hthrough, ?_⟩
    rcases hcause with hbrings | ⟨rfl, j, hretains, hdeclared⟩
    · exact Or.inr ⟨hbrings, hbrings.exists_declaredAt⟩
    · exact Or.inl ⟨rfl, j, hretains, runOver_of_retains hretains hdeclared⟩
  · refine normalize_eq_self fun form _ => ?_
    rw [← Bool.not_eq_true]
    intro hoccurs
    obtain ⟨place, hplace⟩ := occursInCode_declares_iff.mp hoccurs
    rw [hnone form place] at hplace
    cases hplace

/-- An import is left in code because one that begins in a comment runs over it; and an export is
left because the one behind it was replaced, so that normalizing again changes the script. -/
theorem declarations_left_in_code :
    normalize "// import \x7b\nimport \x7b a \x7d from 'b'".toList =
        "// import \x7b\nimport \x7b a \x7d from 'b'".toList ∧
      declaredAt .importNamed (normalize "// import \x7b\nimport \x7b a \x7d from 'b'".toList) 12 =
        true ∧
      normalize "obj.export\nexport const x = 1".toList = "obj.export\nconst x = 1".toList ∧
      normalize (normalize "obj.export\nexport const x = 1".toList) =
        "obj.const\n x = 1".toList := by
  decide +kernel

end SnippetRunner.Script
