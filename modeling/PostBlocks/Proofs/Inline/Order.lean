import Mathlib.Data.List.Forall2
import Mathlib.Data.List.Sort
import PostBlocks.Inline.Render
import PostBlocks.Proofs.Inline.Partition

/-!
# The order of ranges does not count

Ranges that start together are laid over the text in the order given, so the fragments on the way
differ from one order to another. What is left in the end does not, but for the order of the ranges
that a span carries (`Span.Alike`): where spans begin and end, and which ranges are over a span, is
settled by which ranges there are (`Span.Resolves.forall₂_alike`). The markup of a span asks only
whether it carries a range of some kind, so it is the same (`Span.Alike.render_eq`).
-/

namespace PostBlocks

namespace Span

/-- The same stretch under the same ranges, in whichever order. -/
structure Alike (s t : Span) : Prop where
  start : s.start = t.start
  stop : s.stop = t.stop
  formats : s.formats.Perm t.formats

namespace Alike

variable {s t : Span}

/-- Whether a span carries a format is a question of its ranges, whichever their order. -/
theorem hasFormat_eq (h : s.Alike t) (kind : String) : s.hasFormat kind = t.hasFormat kind :=
  h.formats.any_eq

theorem tagsOf_eq (h : s.Alike t) (table : TagTable) : table.tagsOf s = table.tagsOf t := by
  rw [TagTable.tagsOf, TagTable.tagsOf, funext fun m : TagMapping ↦ h.hasFormat_eq m.format]

theorem slice_eq (h : s.Alike t) (text : List Char) : s.slice text = t.slice text := by
  rw [slice, slice, h.start, h.stop]

/-- Spans that are alike have the same markup. -/
theorem render_eq (h : s.Alike t) (table : TagTable) (text : List Char) :
    s.render table text = t.render table text := by
  rw [render, render, h.slice_eq, h.tagsOf_eq]

end Alike

/-- Spans that are alike one by one have the same markup together. -/
theorem renderAll_eq {ss ts : List Span} (h : List.Forall₂ Alike ss ts) (table : TagTable)
    (text : List Char) : renderAll table text ss = renderAll table text ts := by
  induction h with
  | nil => rfl
  | cons hs _ ih => rw [renderAll_cons, renderAll_cons, hs.render_eq, ih]

/-- The bounds of spans and what these carry are settled by the ranges that they resolve. -/
theorem Resolves.forall₂_alike {n : Nat} {cs ds : List ClampedRange} {ss ts : List Span}
    (hs : Resolves n cs ss) (ht : Resolves n ds ts) (hperm : cs.Perm ds) :
    List.Forall₂ Alike ss ts := by
  have hbounds : bounds n ss = bounds n ts := by
    refine hs.tiles.pairwise_bounds.eq_of_mem_iff ht.tiles.pairwise_bounds fun x ↦ ?_
    rw [hs.mem_bounds, ht.mem_bounds]
    simp only [hperm.mem_iff]
  rw [hs.eq_zipWith, ht.eq_zipWith, hbounds, ← List.map_uncurry_zip_eq_zipWith,
    ← List.map_uncurry_zip_eq_zipWith, List.forall₂_map_left_iff, List.forall₂_map_right_iff,
    List.forall₂_same]
  exact fun _ _ ↦ ⟨rfl, rfl, (hperm.filter _).map _⟩

end Span

/-- The same ranges clamp to the same clamped ranges. -/
theorem FormatRange.clampAll_perm {ranges ranges' : List FormatRange} (h : ranges.Perm ranges')
    (n : Nat) : (clampAll n ranges).Perm (clampAll n ranges') := by
  have hsort (rs : List FormatRange) : (clampAll n rs).Perm (rs.filterMap (clamp? n)) :=
    List.mergeSort_perm _ _
  exact ((hsort ranges).trans (h.filterMap _)).trans (hsort ranges').symm

namespace Span

/-- The same ranges in another order give the same spans, with the same ranges over each of them in
some order, and the same markup. -/
theorem alike_resolve_of_perm {ranges ranges' : List FormatRange} (h : ranges.Perm ranges') :
    (∀ n, List.Forall₂ Alike (resolve n ranges) (resolve n ranges'))
      ∧ ∀ (table : TagTable) (text : String),
        renderInline table text ranges = renderInline table text ranges' := by
  have halike : ∀ n, List.Forall₂ Alike (resolve n ranges) (resolve n ranges') := fun n ↦
    (resolves_resolve n ranges).forall₂_alike (resolves_resolve n ranges')
      (FormatRange.clampAll_perm h n)
  refine ⟨halike, fun table text ↦ ?_⟩
  rw [renderInline, renderInline, renderInlineChars, renderInlineChars, renderAll_eq (halike _)]

/-- Two of the ranges start together, so their order shows in the spans and not in the markup. -/
theorem alike_resolve_of_perm_tie :
    ([⟨0, 2, "italic"⟩, ⟨0, 9, "bold"⟩, ⟨1, 3, "color"⟩] : List FormatRange).Perm
        [⟨1, 3, "color"⟩, ⟨0, 9, "bold"⟩, ⟨0, 2, "italic"⟩]
      ∧ List.Forall₂ Alike
        (resolve 3 [⟨0, 2, "italic"⟩, ⟨0, 9, "bold"⟩, ⟨1, 3, "color"⟩])
        (resolve 3 [⟨1, 3, "color"⟩, ⟨0, 9, "bold"⟩, ⟨0, 2, "italic"⟩])
      ∧ renderInline .standard "a<b" [⟨0, 2, "italic"⟩, ⟨0, 9, "bold"⟩, ⟨1, 3, "color"⟩]
        = renderInline .standard "a<b" [⟨1, 3, "color"⟩, ⟨0, 9, "bold"⟩, ⟨0, 2, "italic"⟩] := by
  have hperm : ([⟨0, 2, "italic"⟩, ⟨0, 9, "bold"⟩, ⟨1, 3, "color"⟩] : List FormatRange).Perm
      [⟨1, 3, "color"⟩, ⟨0, 9, "bold"⟩, ⟨0, 2, "italic"⟩] := by decide
  exact ⟨hperm, (alike_resolve_of_perm hperm).1 3, (alike_resolve_of_perm hperm).2 .standard "a<b"⟩

end Span

end PostBlocks
