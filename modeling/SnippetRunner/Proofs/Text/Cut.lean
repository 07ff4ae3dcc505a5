import Mathlib.Data.List.Basic
import Mathlib.Data.List.TakeWhile
import SnippetRunner.Text.Split
import SnippetRunner.Text.Blank

/-
  What cutting a list after its marked elements yields. `Cut p pieces` says that every piece
  runs up to its only marked element, and that the last may have none. Such pieces are found
  again in their join, so cutting is known from the pieces alone. Below it, cuts that leave the
  marked elements out, and those that trimming makes at the ends of a text.
-/
namespace SnippetRunner.Text

/-- Pieces that each end with their only element marked by `p`; the last may have none. -/
inductive Cut {α : Type} (p : α → Bool) : List (List α) → Prop
  | nil : Cut p []
  | unclosed {piece : List α} (nonempty : piece ≠ []) (unmarked : ∀ a ∈ piece, p a = false) :
      Cut p [piece]
  | closed {s : List α} {a : α} {pieces : List (List α)}
      (unmarked : ∀ b ∈ s, p b = false) (marked : p a = true) (rest : Cut p pieces) :
      Cut p ((s ++ [a]) :: pieces)

/-- An element of a join stands in the one part or in the other. -/
theorem append_eq_append_cons {α : Type} {a b c d : List α} {x : α} (h : a ++ b = c ++ x :: d) :
    (∃ m, c = a ++ m ∧ b = m ++ x :: d) ∨ ∃ m, a = c ++ x :: m ∧ d = m ++ b := by
  rcases List.append_eq_append_iff.mp h with ⟨m, hc, hb⟩ | ⟨m, ha, hd⟩
  · exact Or.inl ⟨m, hc, hb⟩
  · cases m with
    | nil =>
      rw [List.append_nil] at ha
      exact Or.inl ⟨[], by rw [List.append_nil, ha], hd.symm⟩
    | cons y m =>
      rw [List.cons_append, List.cons.injEq] at hd
      exact Or.inr ⟨m, by rw [ha, hd.1], hd.2⟩

/-- Two places hold one element, if it is the last in a list that satisfies `p`. -/
theorem eq_of_last {α : Type} {p : α → Bool} {a b c d : List α} {x y : α}
    (h : a ++ x :: b = c ++ y :: d) (hx : p x = true) (hy : p y = true)
    (hb : ∀ z ∈ b, p z = false) (hd : ∀ z ∈ d, p z = false) : x = y := by
  rcases append_eq_append_cons h with ⟨m, -, hsplit⟩ | ⟨m, -, rfl⟩
  · cases m with
    | nil => exact (List.cons.inj hsplit).1
    | cons z m =>
      rw [hb y (by rw [(List.cons.inj hsplit).2]; simp)] at hy
      cases hy
  · rw [hd x (by simp)] at hx
    cases hx

section Cut

variable {α β : Type} {p : α → Bool}

theorem splitAfter_of_unmarked {s : List α} (hs : s ≠ []) (h : ∀ a ∈ s, p a = false) :
    splitAfter p s = [s] := by
  induction s with
  | nil => exact absurd rfl hs
  | cons a rest ih =>
    rw [splitAfter, if_neg (by simp [h a])]
    cases rest with
    | nil => rfl
    | cons b rest =>
      rw [ih (by simp) fun c hc => h c (List.mem_cons_of_mem _ hc)]

theorem splitAfter_append_marked {init : List α} {a : α} (s : List α)
    (h : ∀ b ∈ init, p b = false) (ha : p a = true) :
    splitAfter p (init ++ a :: s) = (init ++ [a]) :: splitAfter p s := by
  induction init with
  | nil => simp [splitAfter, ha]
  | cons b init ih =>
    have hb : p b = false := h b (List.mem_cons_self ..)
    rw [List.cons_append, splitAfter, if_neg (by simp [hb]),
      ih fun c hc => h c (List.mem_cons_of_mem _ hc)]
    rfl

theorem cut_splitAfter (p : α → Bool) (s : List α) : Cut p (splitAfter p s) := by
  induction s with
  | nil => exact .nil
  | cons a rest ih =>
    rw [splitAfter]
    by_cases ha : p a = true
    · rw [if_pos ha]
      exact Cut.closed (s := []) (by simp) ha ih
    · have ha : p a = false := by simpa using ha
      rw [if_neg (by simp [ha])]
      revert ih
      generalize splitAfter p rest = pieces
      intro ih
      cases ih with
      | nil => exact .unclosed (by simp) (by simpa using ha)
      | unclosed hne h => exact .unclosed (by simp) (by simpa [ha] using h)
      | closed h hm hrest => exact .closed (s := a :: _) (by simpa [ha] using h) hm hrest

/-- The piece of an element, behind as many pieces as marked elements stand before it. -/
theorem splitAfter_append_cons (p : α → Bool) (a : List α) (x : α) (b : List α) :
    ∃ earlier init tail later,
      splitAfter p (a ++ x :: b) = earlier ++ (init ++ x :: tail) :: later ∧
        earlier.length = a.countP p ∧ a = earlier.flatten ++ init ∧ b = tail ++ later.flatten := by
  induction a with
  | nil =>
    have hb := flatten_splitAfter p b
    rw [List.nil_append, splitAfter]
    split
    · exact ⟨[], [], [], splitAfter p b, rfl, rfl, rfl, hb.symm⟩
    · split
      · next hnil =>
        rw [hnil] at hb
        exact ⟨[], [], [], [], rfl, rfl, rfl, hb.symm⟩
      · next piece pieces hpieces =>
        rw [hpieces] at hb
        exact ⟨[], [], piece, pieces, rfl, rfl, rfl, hb.symm⟩
  | cons y a ih =>
    obtain ⟨earlier, init, tail, later, hsplit, hlength, ha, hb⟩ := ih
    rw [List.cons_append, splitAfter, hsplit]
    split
    · next hy =>
      exact ⟨[y] :: earlier, init, tail, later, rfl,
        by rw [List.length_cons, hlength, List.countP_cons_of_pos hy], by simp [ha], hb⟩
    · next hy =>
      rw [List.countP_cons_of_neg hy, ← hlength]
      cases earlier with
      | nil => exact ⟨[], y :: init, tail, later, rfl, rfl, by simp [ha], hb⟩
      | cons piece earlier =>
        exact ⟨(y :: piece) :: earlier, init, tail, later, rfl, rfl, by simp [ha], hb⟩

/-- Pieces of a cut are found again in their join. -/
theorem splitAfter_flatten {pieces : List (List α)} (h : Cut p pieces) :
    splitAfter p pieces.flatten = pieces := by
  induction h with
  | nil => rfl
  | unclosed hne h => simpa using splitAfter_of_unmarked hne h
  | closed h hm _ ih =>
    rw [List.flatten_cons, List.append_assoc, List.singleton_append,
      splitAfter_append_marked _ h hm, ih]

theorem Cut.map {q : β → Bool} {f : α → β} {pieces : List (List α)} (h : Cut p pieces)
    (hf : ∀ a, q (f a) = p a) : Cut q (pieces.map (List.map f)) := by
  induction h with
  | nil => exact .nil
  | unclosed hne h => exact .unclosed (by simpa using hne) (by simpa [hf] using h)
  | closed h hm _ ih =>
    simpa using Cut.closed (s := _) (a := f _) (by simpa [hf] using h) (by simpa [hf] using hm) ih

theorem splitAfter_map {q : β → Bool} {f : α → β} (hf : ∀ a, q (f a) = p a) (s : List α) :
    splitAfter q (s.map f) = (splitAfter p s).map (List.map f) := by
  rw [← splitAfter_flatten ((cut_splitAfter p s).map hf), ← List.map_flatten,
    flatten_splitAfter]

theorem flatten_map_flatMap (f : α → List β) (pieces : List (List α)) :
    (pieces.map (List.flatMap f)).flatten = pieces.flatten.flatMap f := by
  rw [List.flatMap_def, List.map_flatten, List.flatten_flatten, List.map_map]
  rfl

/-- Spreading every element over some of its own, and a marked one over one marked one, does not
change where a list is cut. -/
theorem splitAfter_flatMap {q : β → Bool} {f : α → List β} {s : List α} (hne : ∀ a, f a ≠ [])
    (hunmarked : ∀ a, p a = false → ∀ b ∈ f a, q b = false)
    (hmarked : ∀ a ∈ s, p a = true → ∃ b, f a = [b] ∧ q b = true) :
    splitAfter q (s.flatMap f) = (splitAfter p s).map (List.flatMap f) := by
  have hunmarked' {t : List α} (ht : ∀ a ∈ t, p a = false) : ∀ b ∈ t.flatMap f, q b = false := by
    intro b hb
    obtain ⟨a, ha, hb⟩ := List.mem_flatMap.mp hb
    exact hunmarked a (ht a ha) b hb
  have h {pieces : List (List α)} (hcut : Cut p pieces) (hsub : ∀ a ∈ pieces.flatten, a ∈ s) :
      Cut q (pieces.map (List.flatMap f)) := by
    induction hcut with
    | nil => exact .nil
    | @unclosed t ht hu =>
      refine .unclosed (fun hnil => ?_) (hunmarked' hu)
      obtain ⟨a, t, rfl⟩ := List.exists_cons_of_ne_nil ht
      rw [List.flatMap_cons, List.append_eq_nil_iff] at hnil
      exact hne a hnil.1
    | @closed init a pieces hu hm _ ih =>
      obtain ⟨b, hb, hq⟩ := hmarked a (hsub a (by simp)) hm
      rw [List.map_cons, List.flatMap_append, List.flatMap_singleton, hb]
      refine .closed (hunmarked' hu) hq (ih fun c hc => hsub c ?_)
      rw [List.flatten_cons]
      exact List.mem_append_right _ hc
  have hsplit := h (cut_splitAfter p s) fun a ha => by rwa [flatten_splitAfter] at ha
  rw [← splitAfter_flatten hsplit, flatten_map_flatMap, flatten_splitAfter]

/-- A list is one piece if its image is. -/
theorem Cut.of_map {q : β → Bool} {f : α → β} {s : List α} (hf : ∀ a, q (f a) = p a)
    (h : Cut q [s.map f]) : Cut p [s] := by
  have hsplit := splitAfter_flatten h
  rw [List.flatten_singleton, splitAfter_map hf, List.map_eq_singleton_iff] at hsplit
  obtain ⟨piece, hpiece, -⟩ := hsplit
  have hflatten := flatten_splitAfter p s
  rw [hpiece, List.flatten_singleton] at hflatten
  rw [← hflatten, ← hpiece]
  exact cut_splitAfter p s

/-- A first piece is split off, if it ends as pieces do wherever something follows. -/
theorem splitAfter_append_piece {piece rest : List α} (h : Cut p [piece])
    (hlast : rest ≠ [] → piece.getLast?.any p = true) :
    splitAfter p (piece ++ rest) = piece :: splitAfter p rest := by
  cases h with
  | unclosed hne hu =>
    cases rest with
    | nil => rw [List.append_nil, splitAfter_of_unmarked hne hu, splitAfter]
    | cons b rest =>
      obtain ⟨a, ha⟩ := Option.isSome_iff_exists.mp (List.getLast?_isSome.mpr hne)
      have := hlast (List.cons_ne_nil _ _)
      rw [ha, Option.any_some, hu a (List.mem_of_getLast? ha)] at this
      cases this
  | closed hu hm _ =>
    rw [List.append_assoc, List.singleton_append, splitAfter_append_marked rest hu hm]

/-- A list is cut where a marked element ends its first part. -/
theorem splitAfter_append_of_marked {s : List α} (h : ∀ a ∈ s.getLast?, p a = true) (t : List α) :
    splitAfter p (s ++ t) = splitAfter p s ++ splitAfter p t := by
  induction s with
  | nil => rfl
  | cons a s ih =>
    have hrest : ∀ b ∈ s.getLast?, p b = true := fun b hb => h b (List.mem_getLast?_cons hb)
    rw [List.cons_append, splitAfter, splitAfter, ih hrest]
    by_cases ha : p a = true
    · rw [if_pos ha, if_pos ha, List.cons_append]
    · have hne : s ≠ [] := by
        rintro rfl
        exact ha (h a rfl)
      cases hs : splitAfter p s with
      | nil =>
        have hflatten := flatten_splitAfter p s
        rw [hs] at hflatten
        exact absurd hflatten.symm hne
      | cons piece pieces => rw [if_neg ha, if_neg ha, List.cons_append, List.cons_append]

theorem Cut.ne_nil {pieces : List (List α)} (h : Cut p pieces) {piece : List α}
    (hp : piece ∈ pieces) : piece ≠ [] := by
  induction h with
  | nil => cases hp
  | unclosed hne _ => rw [List.mem_singleton.mp hp]; exact hne
  | closed _ _ _ ih =>
    rcases List.mem_cons.mp hp with rfl | hp
    · simp
    · exact ih hp

/-- Only the last element of a piece is marked. -/
theorem Cut.unmarked_of_mem_dropLast {pieces : List (List α)} (h : Cut p pieces) {piece : List α}
    (hp : piece ∈ pieces) {a : α} (ha : a ∈ piece.dropLast) : p a = false := by
  induction h with
  | nil => cases hp
  | unclosed _ hu =>
    rw [List.mem_singleton.mp hp] at ha
    exact hu a (List.dropLast_subset _ ha)
  | closed hu _ _ ih =>
    rcases List.mem_cons.mp hp with rfl | hp
    · rw [List.dropLast_concat] at ha
      exact hu a ha
    · exact ih hp

/-- The last element before other pieces is marked. -/
theorem Cut.marked_of_getLast? {earlier later : List (List α)} (h : Cut p (earlier ++ later))
    (hne : later ≠ []) {a : α} (ha : a ∈ earlier.flatten.getLast?) : p a = true := by
  induction earlier with
  | nil => cases ha
  | cons piece earlier ih =>
    rw [List.cons_append] at h
    generalize hpieces : earlier ++ later = pieces at h
    cases h with
    | unclosed _ _ => exact absurd (List.append_eq_nil_iff.mp hpieces).2 hne
    | closed _ hm hrest =>
      rw [List.flatten_cons, List.getLast?_append, Option.mem_def, Option.or_eq_some_iff] at ha
      rcases ha with ha | ⟨-, ha⟩
      · exact ih (by rw [hpieces]; exact hrest) ha
      · rw [List.getLast?_concat] at ha
        obtain rfl := Option.some.inj ha
        exact hm

end Cut

/-! ## Between marks -/

section Between

variable {α : Type} {p : α → Bool}

theorem splitBetween_of_unmarked {s : List α} (h : ∀ a ∈ s, p a = false) :
    splitBetween p s = [s] := by
  induction s with
  | nil => rfl
  | cons a rest ih =>
    rw [splitBetween, if_neg (by simp [h a]), ih fun b hb => h b (List.mem_cons_of_mem _ hb)]

theorem splitBetween_append_marked {s : List α} {a : α} (rest : List α)
    (h : ∀ b ∈ s, p b = false) (ha : p a = true) :
    splitBetween p (s ++ a :: rest) = s :: splitBetween p rest := by
  induction s with
  | nil => rw [List.nil_append, splitBetween, if_pos ha]
  | cons b s ih =>
    rw [List.cons_append, splitBetween, if_neg (by simp [h b]),
      ih fun c hc => h c (List.mem_cons_of_mem _ hc)]

theorem splitBetween_ne_nil (p : α → Bool) (s : List α) : splitBetween p s ≠ [] := by
  cases s with
  | nil => exact List.cons_ne_nil _ _
  | cons a s =>
    rw [splitBetween]
    split
    · exact List.cons_ne_nil _ _
    · split <;> exact List.cons_ne_nil _ _

theorem splitBetween_cons_of_not {a : α} (h : p a = false)
    (s : List α) : splitBetween p (a :: s) = (splitBetween p s).modifyHead (a :: ·) := by
  rw [splitBetween, if_neg (by simp [h])]
  obtain ⟨piece, pieces, hs⟩ := List.exists_cons_of_ne_nil (splitBetween_ne_nil p s)
  rw [hs]
  rfl

theorem splitBetween_append_cons {a : α} (ha : p a = true)
    (s t : List α) : splitBetween p (s ++ a :: t) = splitBetween p s ++ splitBetween p t := by
  induction s with
  | nil =>
    rw [List.nil_append, splitBetween.eq_def p (a :: t)]
    exact if_pos ha
  | cons b s ih =>
    cases hb : p b with
    | true => rw [List.cons_append, splitBetween, if_pos hb, ih, splitBetween, if_pos hb]; rfl
    | false =>
      obtain ⟨piece, pieces, hs⟩ := List.exists_cons_of_ne_nil (splitBetween_ne_nil p s)
      rw [List.cons_append, splitBetween_cons_of_not hb, ih, splitBetween_cons_of_not hb, hs]
      rfl

theorem length_splitBetween (p : α → Bool) (s : List α) :
    (splitBetween p s).length = s.countP p + 1 := by
  induction s with
  | nil => rfl
  | cons a s ih =>
    cases h : p a with
    | true => rw [splitBetween, if_pos h, List.length_cons, ih, List.countP_cons_of_pos h]
    | false =>
      rw [splitBetween_cons_of_not h, List.length_modifyHead, ih,
        List.countP_cons_of_neg (by simp [h])]

/-- `piece` stands in `s` behind `k` marked elements, from one of them or the beginning up to
another or the end. -/
def IsPiece (p : α → Bool) (s : List α) (k : Nat) (piece : List α) : Prop :=
  ∃ before rest, s = before ++ (piece ++ rest) ∧ before.countP p = k ∧
    before.getLast?.all p = true ∧ rest.head?.all p = true ∧ ∀ a ∈ piece, p a = false

theorem eq_nil_of_unmarked {s : List α} (h : s.countP p = 0) (hlast : s.getLast?.all p = true) :
    s = [] := by
  cases hs : s.getLast? with
  | none => exact List.getLast?_eq_none_iff.mp hs
  | some a =>
    rw [hs, Option.all_some] at hlast
    exact absurd hlast (List.countP_eq_zero.mp h a (List.mem_of_getLast? hs))

theorem isPiece_of_splitBetween {s piece : List α} {k : Nat}
    (h : (splitBetween p s)[k]? = some piece) : IsPiece p s k piece := by
  induction s generalizing k piece with
  | nil =>
    obtain ⟨rfl, rfl⟩ : k = 0 ∧ piece = [] := by
      cases k with
      | zero => exact ⟨rfl, by simpa [splitBetween, eq_comm] using h⟩
      | succ k => simp [splitBetween] at h
    exact ⟨[], [], rfl, rfl, rfl, rfl, nofun⟩
  | cons a s ih =>
    cases ha : p a with
    | true =>
      rw [splitBetween, if_pos ha] at h
      cases k with
      | zero =>
        obtain rfl : [] = piece := by simpa using h
        exact ⟨[], a :: s, rfl, rfl, rfl, ha, nofun⟩
      | succ k =>
        obtain ⟨before, rest, rfl, hcount, hlast, hrest, hpiece⟩ := ih (by simpa using h)
        refine ⟨a :: before, rest, rfl, by rw [List.countP_cons_of_pos ha, hcount], ?_, hrest,
          hpiece⟩
        cases hbefore : before.getLast? with
        | none => simp [List.getLast?_eq_none_iff.mp hbefore, ha]
        | some b => simpa [List.getLast?_cons, hbefore] using hlast
    | false =>
      rw [splitBetween_cons_of_not ha, List.getElem?_modifyHead] at h
      cases k with
      | zero =>
        obtain ⟨first, hfirst, rfl⟩ := Option.map_eq_some_iff.mp h
        obtain ⟨before, rest, rfl, hcount, hlast, hrest, hpiece⟩ := ih hfirst
        obtain rfl := eq_nil_of_unmarked hcount hlast
        refine ⟨[], rest, rfl, rfl, rfl, hrest, ?_⟩
        rintro b (_ | ⟨_, hb⟩)
        · exact ha
        · exact hpiece b hb
      | succ k =>
        obtain ⟨before, rest, rfl, hcount, hlast, hrest, hpiece⟩ := ih (by simpa using h)
        refine ⟨a :: before, rest, rfl, ?_, ?_, hrest, hpiece⟩
        · rw [List.countP_cons_of_neg (by simp [ha]), hcount]
        · cases hbefore : before.getLast? with
          | none =>
            rw [List.getLast?_eq_none_iff.mp hbefore] at hcount
            cases hcount
          | some b => simpa [List.getLast?_cons, hbefore] using hlast

theorem splitBetween_of_isPiece {s piece : List α} {k : Nat} (h : IsPiece p s k piece) :
    (splitBetween p s)[k]? = some piece := by
  obtain ⟨before, rest, rfl, rfl, hlast, hrest, hpiece⟩ := h
  induction before with
  | nil =>
    cases rest with
    | nil => simp [splitBetween_of_unmarked hpiece]
    | cons a rest => simp [splitBetween_append_marked rest hpiece hrest]
  | cons a before ih =>
    have hbefore : before ≠ [] → before.getLast?.all p = true := by
      intro hne
      obtain ⟨b, hb⟩ := Option.isSome_iff_exists.mp (List.getLast?_isSome.mpr hne)
      simpa [List.getLast?_cons, hb] using hlast
    cases ha : p a with
    | true =>
      have hlast : before.getLast?.all p = true := by
        cases before with
        | nil => rfl
        | cons b before => exact hbefore (List.cons_ne_nil _ _)
      rw [List.countP_cons_of_pos ha, List.cons_append, splitBetween, if_pos ha]
      exact ih hlast
    | false =>
      have hne : before ≠ [] := by
        rintro rfl
        simp [ha] at hlast
      have ih := ih (hbefore hne)
      rw [List.countP_cons_of_neg (by simp [ha]), List.cons_append, splitBetween_cons_of_not ha,
        List.getElem?_modifyHead]
      cases hcount : before.countP p with
      | zero => exact absurd (eq_nil_of_unmarked hcount (hbefore hne)) hne
      | succ k => simpa [hcount] using ih

theorem splitBetween_getElem?_iff {s piece : List α} {k : Nat} :
    (splitBetween p s)[k]? = some piece ↔ IsPiece p s k piece :=
  ⟨isPiece_of_splitBetween, splitBetween_of_isPiece⟩

end Between

/-! ## Trimming -/

theorem trimStart_append {before s : List Char} (hbefore : ∀ c ∈ before, isBlank c = true)
    (h : ∀ c ∈ s.head?, isBlank c = false) : trimStart (before ++ s) = s := by
  rw [trimStart, List.dropWhile_append_of_pos hbefore]
  cases s with
  | nil => rfl
  | cons c s => exact List.dropWhile_cons_of_neg (by rw [h c rfl]; decide)

theorem trim_append {before after s : List Char} (hbefore : ∀ c ∈ before, isBlank c = true)
    (hafter : ∀ c ∈ after, isBlank c = true) (hfirst : ∀ c ∈ s.head?, isBlank c = false)
    (hlast : ∀ c ∈ s.getLast?, isBlank c = false) (hs : s ≠ []) :
    trim (before ++ s ++ after) = s := by
  have hhead : ∀ c ∈ (s ++ after).head?, isBlank c = false := by
    obtain ⟨c, t, rfl⟩ := List.exists_cons_of_ne_nil hs
    exact hfirst
  have hreverse : trimStart (after.reverse ++ s.reverse) = s.reverse :=
    trimStart_append (fun c hc => hafter c (List.mem_reverse.mp hc))
      (by rw [List.head?_reverse]; exact hlast)
  rw [List.append_assoc, trim, trimStart_append hbefore hhead, trimEnd, List.reverse_append]
  rw [trimStart] at hreverse
  rw [hreverse, List.reverse_reverse]

theorem exists_trim (s : List Char) : ∃ before after, s = before ++ (trim s ++ after) ∧
    (∀ c ∈ before, isBlank c = true) ∧ ∀ c ∈ after, isBlank c = true := by
  have hstart : s = s.takeWhile isBlank ++ trimStart s := List.takeWhile_append_dropWhile.symm
  have hend := congrArg List.reverse
    (List.takeWhile_append_dropWhile (p := isBlank) (l := (trimStart s).reverse))
  rw [List.reverse_append, List.reverse_reverse] at hend
  refine ⟨s.takeWhile isBlank, ((trimStart s).reverse.takeWhile isBlank).reverse, ?_,
    fun c hc => List.mem_takeWhile_imp hc, fun c hc => ?_⟩
  · exact hstart.trans (congrArg (s.takeWhile isBlank ++ ·) hend.symm)
  · exact List.mem_takeWhile_imp (List.mem_reverse.mp hc)

end SnippetRunner.Text
