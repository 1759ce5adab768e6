import PostBlocks.Inline.Render

/-!
# Spans tile their text

The spans of a text follow one another without a gap from its start to its end, and none of them is
empty. `Span.Tiles` says this of some spans and a stretch of text. Laying a range over a span cuts
it into spans that tile it (`ClampedRange.tiles_cut`); so every pass keeps a tiling, however many
fragments it copies unseen (`Span.Progress.tiles_step`). What spans that tile a stretch cover is the
stretch, nothing twice (`Span.Tiles.flatMap_drop_take`).
-/

namespace PostBlocks

namespace Span

/-- Spans that are not empty lead from `a` to `b`, each starting where the one before it stops. -/
inductive Tiles : Nat → Nat → List Span → Prop
  | nil (a : Nat) : Tiles a a []
  | cons {b : Nat} {s : Span} {ss : List Span} (h : s.start < s.stop) :
    Tiles s.stop b ss → Tiles s.start b (s :: ss)

namespace Tiles

theorem le {a b : Nat} {ss : List Span} (h : Tiles a b ss) : a ≤ b := by
  induction h with
  | nil => exact Nat.le_refl _
  | cons h _ ih => exact Nat.le_trans (Nat.le_of_lt h) ih

/-- No span goes past the end. -/
theorem stop_le {a b : Nat} {ss : List Span} (h : Tiles a b ss) {s : Span} (hs : s ∈ ss) :
    s.stop ≤ b := by
  induction h with
  | nil => cases hs
  | cons _ h ih =>
    rcases List.mem_cons.1 hs with rfl | hs
    · exact h.le
    · exact ih hs

/-- Every span stops past the start. -/
theorem lt_stop {a b : Nat} {ss : List Span} (h : Tiles a b ss) {s : Span} (hs : s ∈ ss) :
    a < s.stop := by
  induction h with
  | nil => cases hs
  | cons ht _ ih =>
    rcases List.mem_cons.1 hs with rfl | hs
    · exact ht
    · exact Nat.lt_trans ht (ih hs)

theorem single (a b : Nat) (formats : List FormatRange) (h : a < b) :
    Tiles a b [⟨a, b, formats⟩] :=
  .cons (s := ⟨a, b, formats⟩) h (.nil b)

theorem append {a b c : Nat} {ss ts : List Span} (h : Tiles a b ss) (h' : Tiles b c ts) :
    Tiles a c (ss ++ ts) := by
  induction h with
  | nil => exact h'
  | cons h _ ih => exact .cons h (ih h')

/-- A tiling can be parted anywhere. -/
theorem exists_of_append {a c : Nat} {ss ts : List Span} (h : Tiles a c (ss ++ ts)) :
    ∃ b, Tiles a b ss ∧ Tiles b c ts := by
  induction ss generalizing a with
  | nil => exact ⟨a, .nil a, h⟩
  | cons s ss ih =>
    cases h with
    | cons hs h =>
      obtain ⟨b, hss, hts⟩ := ih h
      exact ⟨b, .cons hs hss, hts⟩

end Tiles

end Span

open PostBlocks.Span (Tiles)

/-! ### Passes -/

namespace ClampedRange

/-- A range that covers something cuts a span into spans that tile it. -/
theorem tiles_cut {c : ClampedRange} (hc : c.start < c.stop) {s : Span} (hs : s.start < s.stop) :
    Tiles s.start s.stop (c.cut s) := by
  unfold cut
  split
  · exact .cons hs (.nil _)
  · next hmeet =>
    -- three pieces: in front of the range, under it and behind it
    rw [not_or, Nat.not_le, Nat.not_le] at hmeet
    have hbefore : Tiles s.start (max s.start c.start)
        (if s.start < c.start then [⟨s.start, c.start, s.formats⟩] else []) := by
      split
      · next h =>
        rw [Nat.max_eq_right (Nat.le_of_lt h)]
        exact .single _ _ _ h
      · next h =>
        rw [Nat.max_eq_left (Nat.not_lt.1 h)]
        exact .nil _
    have hunder : max s.start c.start < min s.stop c.stop :=
      Nat.max_lt.2 ⟨Nat.lt_min.2 ⟨hs, hmeet.1⟩, Nat.lt_min.2 ⟨hmeet.2, hc⟩⟩
    have hafter : Tiles (min s.stop c.stop) s.stop
        (if c.stop < s.stop then [⟨c.stop, s.stop, s.formats⟩] else []) := by
      split
      · next h =>
        rw [Nat.min_eq_right (Nat.le_of_lt h)]
        exact .single _ _ _ h
      · next h =>
        rw [Nat.min_eq_left (Nat.not_lt.1 h)]
        exact .nil _
    exact (hbefore.append (.single _ _ _ hunder)).append hafter

/-- A pass keeps a tiling. -/
theorem tiles_pass {c : ClampedRange} (hc : c.start < c.stop) {a b : Nat} {ss : List Span}
    (h : Tiles a b ss) : Tiles a b (c.pass ss) := by
  induction h with
  | nil => exact .nil _
  | cons hs _ ih => exact (tiles_cut hc hs).append ih

end ClampedRange

namespace FormatRange

theorem mem_clampAll_iff {n : Nat} {ranges : List FormatRange} {c : ClampedRange} :
    c ∈ clampAll n ranges ↔
      ∃ r ∈ ranges, r.IsEffective n ∧ (⟨r.start, min r.stop n, r⟩ : ClampedRange) = c := by
  simp only [clampAll, List.mem_mergeSort, List.mem_filterMap, clamp?,
    Option.ite_none_right_eq_some, Option.some.injEq]

/-- A clamped range covers something. -/
theorem start_lt_stop_of_mem_clampAll {n : Nat} {ranges : List FormatRange} {c : ClampedRange}
    (h : c ∈ clampAll n ranges) : c.start < c.stop := by
  obtain ⟨r, -, heff, rfl⟩ := mem_clampAll_iff.1 h
  exact heff

/-- A clamped range does not go past the end of the text. -/
theorem stop_le_of_mem_clampAll {n : Nat} {ranges : List FormatRange} {c : ClampedRange}
    (h : c ∈ clampAll n ranges) : c.stop ≤ n := by
  obtain ⟨r, -, -, rfl⟩ := mem_clampAll_iff.1 h
  exact Nat.min_le_right _ _

/-- There is nothing of an empty text to cover. -/
theorem clampAll_zero (ranges : List FormatRange) : clampAll 0 ranges = [] := by
  refine List.eq_nil_iff_forall_not_mem.2 fun c hc ↦ ?_
  have hpos : 0 < c.stop := Nat.zero_lt_of_lt (start_lt_stop_of_mem_clampAll hc)
  exact absurd (stop_le_of_mem_clampAll hc) (Nat.not_le.2 hpos)

end FormatRange

namespace Span

/-- A pass that copies some fragments unseen keeps a tiling. -/
theorem Progress.tiles_step {p : Progress} {c : ClampedRange} (hc : c.start < c.stop) {a b : Nat}
    (h : Tiles a b p.fragments) : Tiles a b (p.step c).fragments := by
  rw [← List.take_append_drop p.settled p.fragments] at h
  -- the fragments that are copied are a tiling of their own
  obtain ⟨m, hsettled, hrest⟩ := h.exists_of_append
  exact hsettled.append (ClampedRange.tiles_pass hc hrest)

/-! ### What spans cover -/

/-- The pieces of a list at spans that tile a stretch make up the list on that stretch. -/
theorem Tiles.flatMap_drop_take {α : Type} {a b : Nat} {ss : List Span} (h : Tiles a b ss)
    (l : List α) : (ss.flatMap fun s ↦ (l.take s.stop).drop s.start) = (l.take b).drop a := by
  induction h with
  | nil a => rw [List.flatMap_nil, List.drop_take, Nat.sub_self, List.take_zero]
  | @cons b s ss hs h ih =>
    have hlen : b - s.start = (s.stop - s.start) + (b - s.stop) := by
      have := h.le
      omega
    have hdrop : l.drop s.stop = (l.drop s.start).drop (s.stop - s.start) := by
      rw [List.drop_drop, Nat.add_sub_of_le (Nat.le_of_lt hs)]
    rw [List.flatMap_cons, ih, List.drop_take, List.drop_take, List.drop_take, hlen, List.take_add,
      hdrop]

end Span

end PostBlocks
