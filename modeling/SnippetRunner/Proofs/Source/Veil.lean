import Mathlib.Data.List.Forall2
import SnippetRunner.Proofs.Source.Encoded
import SnippetRunner.Proofs.Text.Alike

/-
  Scripts that differ in hidden places only. A cover hides some of the glyphs of a script, and a
  veil puts a mark in the place of every byte of a hidden one; what is left are the regions, and
  the glyphs that are not hidden. Scripts whose bytes agree apart from what is hidden have the
  same veil, however their hidden bytes make up characters. So a pass that comes to the same with
  the veil of a script as with its glyphs does not depend on what is hidden.
-/
namespace SnippetRunner.Source

open SnippetRunner.Text

/-- Glyphs that are hidden, with all of their bytes, and the mark that is seen for a byte. -/
structure Cover where
  hides : Glyph → Bool
  mark : Char
  narrow : ¬IsWide mark
  uniform : ∀ {g b : Glyph}, b ∈ g.bytes → hides b = hides g

namespace Cover

variable (v : Cover)

/-- What is seen of a glyph of one byte. -/
def mask (g : Glyph) : Glyph := if v.hides g then ⟨v.mark, g.region⟩ else g

/-- What is seen of a glyph. -/
def seen (g : Glyph) : List Glyph :=
  if v.hides g then List.replicate g.char.utf8Size ⟨v.mark, g.region⟩ else [g]

def veil (gs : List Glyph) : List Glyph := gs.flatMap v.seen

variable {v} {g : Glyph}

theorem seen_of_hidden (h : v.hides g = true) :
    v.seen g = List.replicate g.char.utf8Size ⟨v.mark, g.region⟩ := if_pos h

theorem seen_of_not (h : v.hides g = false) : v.seen g = [g] := by
  rw [seen, h]
  rfl

theorem seen_ne_nil (v : Cover) (g : Glyph) : v.seen g ≠ [] := by
  have hpos := g.char.utf8Size_pos
  cases h : v.hides g with
  | true =>
    rw [seen_of_hidden h]
    exact List.ne_nil_of_length_pos (by rwa [List.length_replicate])
  | false =>
    rw [seen_of_not h]
    exact List.cons_ne_nil _ _

theorem region_of_mem_seen {b : Glyph} (h : b ∈ v.seen g) : b.region = g.region := by
  unfold seen at h
  split at h
  · rw [List.eq_of_mem_replicate h]
  · rw [List.mem_singleton.mp h]

@[simp] theorem veil_nil : v.veil [] = [] := rfl

theorem veil_cons (g : Glyph) (gs : List Glyph) : v.veil (g :: gs) = v.seen g ++ v.veil gs :=
  List.flatMap_cons

theorem veil_append (a b : List Glyph) : v.veil (a ++ b) = v.veil a ++ v.veil b :=
  List.flatMap_append

theorem veil_singleton (g : Glyph) : v.veil [g] = v.seen g := by
  rw [veil_cons, veil_nil, List.append_nil]

theorem veil_eq_nil {gs : List Glyph} : v.veil gs = [] ↔ gs = [] := by
  cases gs with
  | nil => exact ⟨fun _ => rfl, fun _ => rfl⟩
  | cons g gs =>
    rw [veil_cons, List.append_eq_nil_iff]
    exact ⟨fun h => absurd h.1 (v.seen_ne_nil g), nofun⟩

theorem veil_eq_self {gs : List Glyph} (h : ∀ g ∈ gs, v.hides g = false) : v.veil gs = gs := by
  induction gs with
  | nil => rfl
  | cons g gs ih =>
    rw [veil_cons, seen_of_not (h g (List.mem_cons_self ..)),
      ih fun a ha => h a (List.mem_cons_of_mem _ ha), List.singleton_append]

/-- Where hidden glyphs begin with edges, the veil shows the text up to an edge. -/
theorem alike_veil {edges : List Char} {gs : List Glyph} (hmark : v.mark ∈ edges)
    (hchain : gs.IsChain fun g h => v.hides g = false → v.hides h = true → h.char ∈ edges)
    (hhead : ∀ g ∈ gs.head?, v.hides g = true → g.char ∈ edges) :
    Alike edges [] (gs.map Glyph.char) ((v.veil gs).map Glyph.char) := by
  induction gs with
  | nil => exact .nil
  | cons g gs ih =>
    rw [veil_cons]
    cases hg : v.hides g with
    | true =>
      obtain ⟨n, hn⟩ := Nat.exists_eq_succ_of_ne_zero (Nat.ne_of_gt g.char.utf8Size_pos)
      rw [seen_of_hidden hg, hn, List.replicate_succ]
      exact .edge (hhead g rfl hg) hmark _ _
    | false =>
      rw [seen_of_not hg]
      refine .cons g.char (ih hchain.of_cons fun h hh hidden => ?_)
      obtain ⟨gs, rfl⟩ := List.head?_eq_some_iff.mp hh
      exact (List.isChain_cons_cons.mp hchain).1 hg hidden

end Cover

/-! ## Bytes -/

theorem map_char_flatMap_bytes (gs : List Glyph) :
    (gs.flatMap Glyph.bytes).map Glyph.char = bytesOf (gs.map Glyph.char) := by
  induction gs with
  | nil => rfl
  | cons g gs ih =>
    rw [List.flatMap_cons, List.map_append, ih, List.map_cons, bytesOf_cons, Glyph.bytes,
      List.map_map]
    exact congrArg (· ++ _) (List.map_id _)

theorem Glyph.bytes_ne_nil (g : Glyph) : g.bytes ≠ [] := by
  simpa [bytes] using bytesOf_singleton_ne_nil g.char

theorem Glyph.length_bytes (g : Glyph) : g.bytes.length = g.char.utf8Size := by
  rw [bytes, List.length_map, length_bytesOf]
  rfl

/-- Glyphs can be read back from their bytes. -/
theorem flatMap_bytes_injective : Function.Injective (List.flatMap Glyph.bytes) := by
  intro gs hs h
  have hchars : gs.map Glyph.char = hs.map Glyph.char := by
    refine bytesOf_injective ?_
    rw [← map_char_flatMap_bytes, ← map_char_flatMap_bytes]
    exact congrArg _ h
  induction gs generalizing hs with
  | nil => exact (List.map_eq_nil_iff.mp hchars.symm).symm
  | cons g gs ih =>
    cases hs with
    | nil => cases hchars
    | cons g' hs =>
      rw [List.map_cons, List.map_cons, List.cons.injEq] at hchars
      rw [List.flatMap_cons, List.flatMap_cons] at h
      obtain ⟨hbytes, hrest⟩ := List.append_inj h (by
        rw [g.length_bytes, g'.length_bytes, hchars.1])
      have hregion : g.region = g'.region := by
        obtain ⟨b, more, hb⟩ := List.exists_cons_of_ne_nil g.bytes_ne_nil
        have hmem : b ∈ g.bytes := by rw [hb]; exact List.mem_cons_self ..
        rw [← Glyph.region_of_mem_bytes hmem]
        exact Glyph.region_of_mem_bytes (hbytes ▸ hmem)
      rw [ih hrest hchars.2, show g = g' by cases g; cases g'; simp_all]

namespace Cover

variable {v : Cover}

theorem map_mask_bytes (v : Cover) (gs : List Glyph) :
    (gs.flatMap Glyph.bytes).map v.mask = (v.veil gs).flatMap Glyph.bytes := by
  induction gs with
  | nil => rfl
  | cons g gs ih =>
    rw [List.flatMap_cons, List.map_append, ih, veil_cons, List.flatMap_append]
    congr 1
    cases h : v.hides g with
    | true =>
      have hmark : ∀ b ∈ g.bytes, v.mask b = ⟨v.mark, g.region⟩ := fun b hb => by
        rw [mask, v.uniform hb, h, Glyph.region_of_mem_bytes hb]
        rfl
      have hbytes : Glyph.bytes ⟨v.mark, g.region⟩ = [⟨v.mark, g.region⟩] := by
        rw [Glyph.bytes, bytesOf_singleton_of_not_isWide v.narrow]
        rfl
      rw [seen_of_hidden h, List.map_congr_left hmark, List.map_const', g.length_bytes,
        List.flatMap_replicate, hbytes]
      simp
    | false =>
      have hsame : ∀ b ∈ g.bytes, v.mask b = b := fun b hb => by
        rw [mask, v.uniform hb, h]
        rfl
      rw [seen_of_not h, List.map_congr_left hsame, List.map_id', List.flatMap_singleton]

/-- Scripts whose bytes look the same have the same veil. -/
theorem veil_eq_of_mask {s t : List Char}
    (h : List.Forall₂ (fun g h => v.mask g = v.mask h) (byteGlyphs s) (byteGlyphs t)) :
    v.veil (glyphs s) = v.veil (glyphs t) := by
  have hmask {gs hs : List Glyph} (h : List.Forall₂ (fun g h => v.mask g = v.mask h) gs hs) :
      gs.map v.mask = hs.map v.mask := by
    induction h with
    | nil => rfl
    | cons hgh _ ih => rw [List.map_cons, List.map_cons, hgh, ih]
  have hbytes := hmask h
  rw [byteGlyphs_eq, byteGlyphs_eq, map_mask_bytes, map_mask_bytes] at hbytes
  exact flatMap_bytes_injective hbytes

end Cover

end SnippetRunner.Source
