import Mathlib.Data.List.Forall2
import SnippetRunner.Capability
import SnippetRunner.Proofs.Source.Borders
import SnippetRunner.Proofs.Source.Veil
import SnippetRunner.Proofs.Text.Alike
import SnippetRunner.Script.Transform

/-
  Detection sees the code only. What a script needs is looked for at the places of its code, but
  in the whole text around them; `detection_sees_code_only` says that strings, template texts and
  comments make no difference all the same. A search that begins in the code gives up at the
  first neighbour of a border, and a search that a line end begins finds nothing, so it does not
  matter that a line end may follow any comment.
-/
namespace SnippetRunner.Script

open SnippetRunner.Text SnippetRunner.Source

/-- The bytes of both scripts lie in the same regions, and those of the code are the same. -/
def SameCode (s t : List Char) : Prop :=
  List.Forall₂ (fun g h => g.region = h.region ∧ (g.isCode = true → g.char = h.char))
    (byteGlyphs s) (byteGlyphs t)

/-- Hides all but the code. -/
def besideCode : Cover where
  hides g := !g.isCode
  mark := '\''
  narrow := by decide
  uniform h := by rw [Glyph.isCode, Glyph.isCode, Glyph.region_of_mem_bytes h]

theorem SameCode.veil_eq {s t : List Char} (h : SameCode s t) :
    besideCode.veil (glyphs s) = besideCode.veil (glyphs t) := by
  refine Cover.veil_eq_of_mask (h.imp fun g h hgh => ?_)
  obtain ⟨hregion, hchar⟩ := hgh
  have hcode : h.isCode = g.isCode := by rw [Glyph.isCode, Glyph.isCode, hregion]
  cases hg : g.isCode with
  | true =>
    have hsame : g = h := by
      cases g
      cases h
      simp_all
    rw [hsame]
  | false => simp [Cover.mask, besideCode, hcode, hg, hregion]

theorem mark_mem : besideCode.mark ∈ borderChars := by decide

/-! ## Searches in the code -/

/-- A test of a place in the code, by what stands before and behind it, that looks no further
than the code goes. It fails at a line end. -/
structure SeesCode (p : (before text : List Char) → Bool) : Prop where
  alike : ∀ {before before' text text'}, Alike borderChars ['\n'] before before' →
    Alike borderChars [] text text' → p before text = p before' text'
  newline : ∀ before text, p before ('\n' :: text) = false

section

variable {p : (before text : List Char) → Bool} {g : Glyph} {gs : List Glyph}

/-- From a place in the code on the veil shows the text up to a border. -/
theorem alike_veil (hchain : gs.IsChain Borders) (hhead : ∀ g ∈ gs.head?, g.isCode = true) :
    Alike borderChars [] (gs.map Glyph.char) ((besideCode.veil gs).map Glyph.char) := by
  refine Cover.alike_veil mark_mem (hchain.imp fun g h hborders hg hh => ?_) fun g hg hidden => ?_
  · exact hborders.leavesCode (by simpa [besideCode] using hg) (by simpa [besideCode] using hh)
  · simp [besideCode, hhead g hg] at hidden

/-- Where nothing is code, nothing is found. -/
theorem anyInCode_append {hidden : List Glyph} (h : ∀ g ∈ hidden, g.isCode = false)
    (before text : List Char) (regions : List Region) :
    anyInCode p before (hidden.map Glyph.char ++ text) (hidden.map Glyph.region ++ regions) =
      anyInCode p ((hidden.map Glyph.char).reverse ++ before) text regions := by
  induction hidden generalizing before with
  | nil => rfl
  | cons g hidden ih =>
    have hg : decide (g.region = .code) = false := h g (List.mem_cons_self ..)
    rw [List.map_cons, List.map_cons, List.cons_append, List.cons_append, anyInCode, hg,
      Bool.false_and, Bool.false_or, ih fun a ha => h a (List.mem_cons_of_mem _ ha),
      List.reverse_cons, List.append_assoc]
    rfl

/-- The search comes to the same behind the veil. -/
theorem anyInCode_veil (hp : SeesCode p) (hchain : gs.IsChain Borders)
    {before before' : List Char}
    (hbefore : ∀ g ∈ gs.head?, g.isCode = true → g.char ≠ '\n' →
      Alike borderChars ['\n'] before before') :
    anyInCode p before (gs.map Glyph.char) (gs.map Glyph.region) =
      anyInCode p before' ((besideCode.veil gs).map Glyph.char)
        ((besideCode.veil gs).map Glyph.region) := by
  induction gs generalizing before before' with
  | nil => rfl
  | cons g gs ih =>
    have hborders {h : Glyph} (hh : h ∈ gs.head?) : Borders g h := by
      obtain ⟨gs, rfl⟩ := List.head?_eq_some_iff.mp hh
      exact (List.isChain_cons_cons.mp hchain).1
    have hbefore := hbefore g rfl
    cases hcode : g.isCode with
    | true =>
      have halike := alike_veil hchain fun h hh => by
        rw [← Option.some.inj hh]
        exact hcode
      have hseen : besideCode.seen g = [g] := Cover.seen_of_not (by simp [besideCode, hcode])
      rw [Cover.veil_cons, hseen] at halike ⊢
      have hhere : p before (g.char :: gs.map Glyph.char) =
          p before' (g.char :: (besideCode.veil gs).map Glyph.char) := by
        by_cases hfeed : g.char = '\n'
        · rw [hfeed, hp.newline, hp.newline]
        · exact hp.alike (hbefore hcode hfeed) halike
      have hcons : Alike borderChars ['\n'] (g.char :: before) (g.char :: before') := by
        by_cases hfeed : g.char = '\n'
        · rw [hfeed]
          exact .halt (List.mem_singleton_self _) _ _
        · exact .cons _ (hbefore hcode hfeed)
      have hrest := ih hchain.of_cons fun _ _ _ _ => hcons
      rw [List.singleton_append, List.map_cons, List.map_cons, List.map_cons, List.map_cons,
        anyInCode, anyInCode, hhere, hrest]
    | false =>
      have hseen := Cover.seen_of_hidden (v := besideCode) (g := g) (by simp [besideCode, hcode])
      have hhidden : ∀ b ∈ besideCode.seen g, b.isCode = false := fun b hb => by
        rw [Glyph.isCode, Cover.region_of_mem_seen hb]
        exact hcode
      have hone : ∀ b ∈ [g], b.isCode = false := by simpa using hcode
      have hskip := anyInCode_append (p := p) hone before (gs.map Glyph.char) (gs.map Glyph.region)
      rw [Cover.veil_cons, List.map_append, List.map_append, anyInCode_append hhidden]
      refine hskip.trans (ih hchain.of_cons fun h hh hcode' hfeed => ?_)
      have hborder := ((hborders hh).entersCode hcode hcode').resolve_right hfeed
      obtain ⟨n, hn⟩ := Nat.exists_eq_succ_of_ne_zero (Nat.ne_of_gt g.char.utf8Size_pos)
      rw [hseen, hn, List.map_replicate, List.reverse_replicate, List.replicate_succ]
      exact .edge hborder mark_mem _ _

theorem occursInCode_eq {s t : List Char} (hp : SeesCode p) (h : SameCode s t) :
    occursInCode p s = occursInCode p t := by
  have hveil (source : List Char) : occursInCode p source =
      anyInCode p [] ((besideCode.veil (glyphs source)).map Glyph.char)
        ((besideCode.veil (glyphs source)).map Glyph.region) := by
    have hnil : Alike borderChars ['\n'] [] [] := .nil
    have hsearch := anyInCode_veil hp (isChain_glyphs source) fun _ _ _ _ => hnil
    rwa [map_char_glyphs] at hsearch
  rw [hveil, hveil, h.veil_eq]

end

/-! ## What is looked for -/

/-- The characters of a word are neither next to a border nor line ends. -/
def IsInner (word : List Char) : Prop := word ≠ [] ∧ ∀ c ∈ word, c ∉ borderChars ∧ c ≠ '\n'

instance (word : List Char) : Decidable (IsInner word) :=
  @instDecidableAnd _ _ inferInstance (List.decidableBAll _ word)

section

variable {before before' text text' word : List Char}

theorem dropStart?_newline (hword : IsInner word) : dropStart? word ('\n' :: text) = none := by
  obtain ⟨a, rest, rfl⟩ := List.exists_cons_of_ne_nil hword.1
  rw [dropStart?, if_neg (hword.2 a (List.mem_cons_self ..)).2]

theorem not_isWord_border : ∀ c ∈ borderChars, isWord c = false :=
  fun c hc => by simpa using List.all_eq_true.mp (by decide : borderChars.all (!isWord ·)) c hc

theorem wordBegins_alike (h : Alike borderChars ['\n'] before before') :
    wordBegins before = wordBegins before' :=
  h.wordEnds_eq not_isWord_border

theorem isMember_alike (h : Alike borderChars ['\n'] before before') :
    isMember before = isMember before' := by
  have hmember (s : List Char) : isMember s = s.head?.any (decide <| · = '.') := by
    cases s <;> simp [isMember]
  have hborder := List.all_eq_true.mp (by decide : borderChars.all (fun c => !decide (c = '.')))
  rw [hmember, hmember, h.any_head? fun c hc => by simpa using hborder c hc]

theorem isDeclarationHead_alike (h : Alike borderChars ['\n'] before before') :
    isDeclarationHead before = isDeclarationHead before' := by
  have hblank := List.all_eq_true.mp
    (by decide : ('\n' :: borderChars).all (fun c => !(c = ' ' || c = '\t')))
  have hborder := List.all_eq_true.mp
    (by decide : borderChars.all (fun c => !(c = '\n' || c = ';')))
  have hpassed := h.dropWhile (p := fun c => c = ' ' || c = '\t')
    (fun c hc => by simpa using hblank c (List.mem_cons_of_mem _ hc))
    (fun c hc => by
      rw [List.mem_singleton.mp hc]
      decide)
  have hhead (s : List Char) : isDeclarationHead s =
      ((s.dropWhile fun c => c = ' ' || c = '\t').isEmpty ||
        (s.dropWhile fun c => c = ' ' || c = '\t').head?.any fun c => c = '\n' || c = ';') := by
    unfold isDeclarationHead
    cases s.dropWhile fun c => c = ' ' || c = '\t' <;> rfl
  rw [hhead, hhead, hpassed.isEmpty_eq, hpassed.any_head? fun c hc => by simpa using hborder c hc]

theorem IsInner.passes (hword : IsInner word) :
    ∀ c ∈ word, c ∉ borderChars ∧ c ∉ ([] : List Char) :=
  fun c hc => ⟨(hword.2 c hc).1, List.not_mem_nil⟩

theorem afterWord?_isSome (word before text : List Char) :
    (afterWord? word before text).isSome =
      (wordBegins before && (dropStart? word text).any wordEnds) := by
  rw [afterWord?]
  cases wordBegins before with
  | false => rfl
  | true =>
    cases dropStart? word text with
    | none => rfl
    | some rest => cases h : wordEnds rest <;> simp [h]

theorem afterWord?_alike (hbefore : Alike borderChars ['\n'] before before')
    (htext : Alike borderChars [] text text') (hword : IsInner word) :
    (afterWord? word before text).isSome = (afterWord? word before' text').isSome := by
  rw [afterWord?_isSome, afterWord?_isSome, wordBegins_alike hbefore,
    htext.dropStart?_any hword.passes fun h => h.wordEnds_eq not_isWord_border]

theorem afterWord?_newline (hword : IsInner word) (before text : List Char) :
    (afterWord? word before ('\n' :: text)).isSome = false := by
  rw [afterWord?_isSome, dropStart?_newline hword, Option.any_none, Bool.and_false]

end

theorem seesCode_afterWord? {word : List Char} (hword : IsInner word) :
    SeesCode fun before text => (afterWord? word before text).isSome where
  alike hbefore htext := afterWord?_alike hbefore htext hword
  newline := afterWord?_newline hword

theorem seesCode_mentions {word : List Char} (hword : IsInner word) :
    SeesCode fun before text => !isMember before && (afterWord? word before text).isSome where
  alike hbefore htext := by rw [isMember_alike hbefore, afterWord?_alike hbefore htext hword]
  newline before text := by rw [afterWord?_newline hword, Bool.and_false]

theorem seesCode_isModuleDeclaration : SeesCode isModuleDeclaration where
  alike hbefore htext := by
    rw [isModuleDeclaration, isModuleDeclaration, isDeclarationHead_alike hbefore,
      afterWord?_alike hbefore htext (by decide), afterWord?_alike hbefore htext (by decide)]
  newline before text := by
    rw [isModuleDeclaration, afterWord?_newline (by decide), afterWord?_newline (by decide),
      Bool.or_false, Bool.and_false]

theorem opens_alike {rest rest' : List Char} (h : Alike borderChars [] rest rest') :
    decide ((trimStart rest).head? = some '(') = decide ((trimStart rest').head? = some '(') := by
  have hblank := List.all_eq_true.mp (by decide : borderChars.all (!isBlank ·))
  have hborder := List.all_eq_true.mp (by decide : borderChars.all (fun c => !decide (c = '(')))
  have htrimmed := h.dropWhile (p := isBlank) (fun c hc => by simpa using hblank c hc) nofun
  have hhead (s : List Char) : decide (s.head? = some '(') = s.head?.any (decide <| · = '(') := by
    cases s <;> simp
  rw [hhead, hhead]
  exact htrimmed.any_head? fun c hc => by simpa using hborder c hc

theorem seesCode_isLoadCall : SeesCode isLoadCall where
  alike hbefore htext := by
    have hname {name : List Char} (hname : IsInner name) :=
      htext.dropStart?_any hname.passes opens_alike
    simp only [isLoadCall, wordBegins_alike hbefore, isMember_alike hbefore, List.map_cons,
      List.map_nil, List.any_cons, List.any_nil]
    rw [hname (by decide), hname (by decide)]
  newline before text := by
    simp only [isLoadCall, List.map_cons, List.map_nil, List.any_cons, List.any_nil]
    rw [dropStart?_newline (by decide), dropStart?_newline (by decide)]
    simp

/-! ## Detection -/

section

variable {s t : List Char}

theorem usesModules_eq (h : SameCode s t) : usesModules s = usesModules t := by
  rw [usesModules, usesModules, occursInCode_eq seesCode_isModuleDeclaration h,
    occursInCode_eq seesCode_isLoadCall h]

theorem isInner_globals (capability : Capability) :
    ∀ word ∈ capability.globals, IsInner word.toList := by
  cases capability <;> decide

theorem isRequired_eq (h : SameCode s t) (capability : Capability) :
    capability.isRequired s = capability.isRequired t := by
  have hmentions : capability.globals.any (Capability.mentions s) =
      capability.globals.any (Capability.mentions t) := by
    rw [Bool.eq_iff_iff, List.any_eq_true, List.any_eq_true]
    refine exists_congr fun word => and_congr_right fun hword => ?_
    rw [Capability.mentions, Capability.mentions,
      occursInCode_eq (seesCode_mentions (isInner_globals capability word hword)) h]
  cases capability with
  | modules => exact usesModules_eq h
  | _ => exact hmentions

/-- Scripts with the same code need the same. -/
theorem detection_sees_code_only (s t : List Char) (h : SameCode s t) :
    usesModules s = usesModules t ∧ Capability.required s = Capability.required t ∧
      needsAsync s = needsAsync t := by
  refine ⟨usesModules_eq h, ?_, occursInCode_eq (seesCode_afterWord? (by decide)) h⟩
  exact List.filter_congr fun capability _ => isRequired_eq h capability

end

/-- A string of one wide character and one of two narrow ones, template texts of which one spells
a call, and comments of which one spells a declaration: both scripts load a module and wait. -/
theorem detection_sees_code_only_hidden_calls :
    SameCode "await require('é'); \x60fetch()\x60 // import 'b'".toList
        "await require('ab'); \x60       \x60 // timer('b')".toList ∧
      usesModules "await require('é'); \x60fetch()\x60 // import 'b'".toList = true ∧
      Capability.required "await require('é'); \x60fetch()\x60 // import 'b'".toList =
        [.modules] ∧
      needsAsync "await require('é'); \x60fetch()\x60 // import 'b'".toList = true := by
  have hsame : SameCode "await require('é'); \x60fetch()\x60 // import 'b'".toList
      "await require('ab'); \x60       \x60 // timer('b')".toList := by
    unfold SameCode
    decide +kernel
  obtain ⟨hmodules, hrequired, hasync⟩ := detection_sees_code_only _ _ hsame
  exact ⟨hsame, hmodules.trans (by decide +kernel), hrequired.trans (by decide +kernel),
    hasync.trans (by decide +kernel)⟩

end SnippetRunner.Script
