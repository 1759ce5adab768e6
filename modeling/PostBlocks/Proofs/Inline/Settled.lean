import Mathlib.Data.List.Basic
import Mathlib.Data.List.Induction
import Mathlib.Data.List.TakeWhile
import PostBlocks.Proofs.Inline.Tiling

/-!
# Settled fragments

Ranges are laid over the text in order of their start, so a fragment that stops before one of them
starts is met by none of those to come. A pass that copies such fragments unseen is a plain pass
(`Progress.fragments_step`), and the count it leaves behind is right for the ranges after it
(`Progress.isSettled_step`). It misses none either: the fragments tile the text, so where one goes
past the start of a range, all behind it do (`Progress.lt_stop_step`).

`Progress.IsBetween` says where this puts the passes between the ranges laid and those to come. One
pass keeps it (`Progress.IsBetween.step`), so it holds between any two of them
(`Progress.isBetween_foldl_step`). In the end the spans tile the text, so they cover all of it
(`flatMap_slice_resolve`), and passes that count make the spans that plain ones make
(`resolve_eq_resolvePlainly`).
-/

namespace PostBlocks

namespace ClampedRange

theorem start_le_trans (c d e : ClampedRange) (h : decide (c.start ≤ d.start) = true)
    (h' : decide (d.start ≤ e.start) = true) : decide (c.start ≤ e.start) = true :=
  decide_eq_true (Nat.le_trans (of_decide_eq_true h) (of_decide_eq_true h'))

theorem start_le_total (c d : ClampedRange) :
    (decide (c.start ≤ d.start) || decide (d.start ≤ c.start)) = true := by
  simpa using Nat.le_total c.start d.start

end ClampedRange

/-- Clamped ranges come in order of their start. -/
theorem FormatRange.pairwise_clampAll (n : Nat) (ranges : List FormatRange) :
    (clampAll n ranges).Pairwise fun c d ↦ c.start ≤ d.start := by
  have hsorted := List.pairwise_mergeSort ClampedRange.start_le_trans ClampedRange.start_le_total
    (ranges.filterMap (clamp? n))
  simpa only [clampAll, decide_eq_true_eq] using hsorted

/-- A range leaves the fragments alone that stop before it starts. -/
theorem ClampedRange.pass_eq_self {c : ClampedRange} {ss : List Span}
    (h : ∀ s ∈ ss, s.stop ≤ c.start) : c.pass ss = ss := by
  induction ss with
  | nil => rfl
  | cons s ss ih =>
    obtain ⟨hs, hss⟩ := List.forall_mem_cons.1 h
    have hcut : c.cut s = [s] := if_pos (.inr hs)
    show c.cut s ++ c.pass ss = s :: ss
    rw [hcut, ih hss]
    rfl

namespace Span

open FormatRange (clampAll)

/-- Stops increase along a tiling, so behind a span that goes past a place all do. -/
theorem Tiles.lt_stop_of_mem_dropWhile {a b : Nat} {ss : List Span} (h : Tiles a b ss) {x : Nat}
    {s : Span} (hs : s ∈ ss.dropWhile fun s ↦ s.stop ≤ x) : x < s.stop := by
  induction h with
  | nil => cases hs
  | @cons b t ss _ h ih =>
    by_cases ht : t.stop ≤ x
    · rw [List.dropWhile_cons_of_pos (by simpa using ht)] at hs
      exact ih hs
    · rw [List.dropWhile_cons_of_neg (by simpa using ht)] at hs
      have hlt : x < t.stop := Nat.not_le.1 ht
      rcases List.mem_cons.1 hs with rfl | hs
      · exact hlt
      · exact Nat.lt_trans hlt (h.lt_stop hs)

namespace Progress

/-- The fragments that are counted stop before any of these ranges starts. -/
def IsSettled (p : Progress) (cs : List ClampedRange) : Prop :=
  ∀ c ∈ cs, ∀ s ∈ p.fragments.take p.settled, s.stop ≤ c.start

/-- A pass over fragments of which some are settled is a pass over all of them. -/
theorem fragments_step {p : Progress} {c : ClampedRange}
    (h : ∀ s ∈ p.fragments.take p.settled, s.stop ≤ c.start) :
    (p.step c).fragments = c.pass p.fragments := by
  calc (p.step c).fragments
      = p.fragments.take p.settled ++ c.pass (p.fragments.drop p.settled) := rfl
    _ = c.pass (p.fragments.take p.settled) ++ c.pass (p.fragments.drop p.settled) := by
      rw [ClampedRange.pass_eq_self h]
    _ = c.pass p.fragments := by
      rw [ClampedRange.pass, ClampedRange.pass, ← List.flatMap_append, List.take_append_drop]
      rfl

/-- The fragments that a pass counts are those in front that stop before its range starts. -/
theorem take_settled_step (p : Progress) (c : ClampedRange) :
    (p.step c).fragments.take (p.step c).settled
      = (p.step c).fragments.takeWhile fun s ↦ s.stop ≤ c.start :=
  (List.prefix_iff_eq_take.1 (List.takeWhile_prefix _)).symm

theorem drop_settled_step (p : Progress) (c : ClampedRange) :
    (p.step c).fragments.drop (p.step c).settled
      = (p.step c).fragments.dropWhile fun s ↦ s.stop ≤ c.start := by
  have hparts := List.take_append_drop (p.step c).settled (p.step c).fragments
  rw [take_settled_step] at hparts
  exact List.append_cancel_left (hparts.trans List.takeWhile_append_dropWhile.symm)

/-- What a pass counts is settled for every range that starts no earlier. -/
theorem isSettled_step {p : Progress} {c : ClampedRange} {cs : List ClampedRange}
    (h : ∀ d ∈ cs, c.start ≤ d.start) : (p.step c).IsSettled cs := by
  intro d hd s hs
  rw [take_settled_step] at hs
  have hstop : s.stop ≤ c.start := by simpa using List.mem_takeWhile_imp hs
  exact Nat.le_trans hstop (h d hd)

/-- What a pass does not count goes past the start of its range: where a fragment does, all behind
it do. -/
theorem lt_stop_step {n : Nat} {p : Progress} {c : ClampedRange} (hc : c.start < c.stop)
    (h : Tiles 0 n p.fragments) :
    ∀ s ∈ (p.step c).fragments.drop (p.step c).settled, c.start < s.stop := by
  intro s hs
  rw [drop_settled_step] at hs
  exact (tiles_step hc h).lt_stop_of_mem_dropWhile hs

/-! ### Between two passes -/

/-- Where passes stand that have laid the ranges `done` and have the ranges `rest` to come. The
fragments are those that plain passes make, and they tile the text; those that are counted stop
before any range to come starts, and the others go past the start of every range laid. -/
structure IsBetween (n : Nat) (done rest : List ClampedRange) (p : Progress) : Prop where
  fragments_eq : p.fragments = done.foldl (fun fragments c ↦ c.pass fragments) [⟨0, n, []⟩]
  tiles : Tiles 0 n p.fragments
  settled_le : p.settled ≤ p.fragments.length
  isSettled : p.IsSettled rest
  lt_stop : ∀ c ∈ done, ∀ s ∈ p.fragments.drop p.settled, c.start < s.stop

namespace IsBetween

variable {n : Nat}

/-- Before the first pass the text is one fragment, and it is not counted. -/
theorem start (hn : 0 < n) (rest : List ClampedRange) :
    IsBetween n [] rest ⟨0, [⟨0, n, []⟩]⟩ where
  fragments_eq := rfl
  tiles := .single 0 n [] hn
  settled_le := Nat.zero_le _
  isSettled _ _ _ hs := absurd hs List.not_mem_nil
  lt_stop _ hc := absurd hc List.not_mem_nil

/-- A pass moves its range from those to come to those laid. -/
theorem step {done rest : List ClampedRange} {p : Progress} {c : ClampedRange}
    (h : IsBetween n done (c :: rest) p) (hc : c.start < c.stop)
    (hdone : ∀ d ∈ done, d.start ≤ c.start) (hrest : ∀ d ∈ rest, c.start ≤ d.start) :
    IsBetween n (done ++ [c]) rest (p.step c) where
  fragments_eq := by
    rw [fragments_step (h.isSettled c List.mem_cons_self), h.fragments_eq, List.foldl_concat]
  tiles := tiles_step hc h.tiles
  settled_le := (List.takeWhile_sublist _).length_le
  isSettled := isSettled_step hrest
  lt_stop d hd s hs := by
    have hlast := lt_stop_step hc h.tiles s hs
    rcases List.mem_append.1 hd with hd | hd
    · exact Nat.lt_of_le_of_lt (hdone d hd) hlast
    · rwa [List.mem_singleton.1 hd]

end IsBetween

/-- However many ranges of a text are laid, the passes stand between those and the others. -/
theorem isBetween_foldl_step {n : Nat} (hn : 0 < n) {ranges : List FormatRange}
    {done rest : List ClampedRange} (h : clampAll n ranges = done ++ rest) :
    IsBetween n done rest (done.foldl step ⟨0, [⟨0, n, []⟩]⟩) := by
  -- the induction takes off the range laid last, which is the first of those to come before it
  induction done using List.reverseRecOn generalizing rest with
  | nil => exact .start hn rest
  | append_singleton done c ih =>
    rw [List.append_assoc, List.singleton_append] at h
    have hmem : c ∈ clampAll n ranges := h ▸ List.mem_append_right _ List.mem_cons_self
    have hsorted := FormatRange.pairwise_clampAll n ranges
    rw [h, List.pairwise_append, List.pairwise_cons] at hsorted
    obtain ⟨-, ⟨hrest, -⟩, hdone⟩ := hsorted
    rw [List.foldl_concat]
    exact (ih h).step (FormatRange.start_lt_stop_of_mem_clampAll hmem)
      (fun d hd ↦ hdone d hd c List.mem_cons_self) hrest

/-- In the end all ranges of the text are laid. -/
theorem isBetween_clampAll {n : Nat} (hn : 0 < n) (ranges : List FormatRange) :
    IsBetween n (clampAll n ranges) []
      ((clampAll n ranges).foldl step ⟨0, [⟨0, n, []⟩]⟩) :=
  isBetween_foldl_step hn (List.append_nil _).symm

end Progress

/-! ### The spans of a text -/

/-- The spans of a text tile it. -/
theorem tiles_resolve (n : Nat) (ranges : List FormatRange) : Tiles 0 n (resolve n ranges) := by
  rw [resolve]
  split
  · next hn =>
    rw [hn]
    exact .nil 0
  · next hn => exact (Progress.isBetween_clampAll (Nat.pos_of_ne_zero hn) ranges).tiles

/-- The spans of a text cover all of it, in order. -/
theorem flatMap_slice_resolve (text : List Char) (ranges : List FormatRange) :
    (resolve text.length ranges).flatMap (·.slice text) = text := by
  have h := (tiles_resolve text.length ranges).flatMap_drop_take text
  rwa [List.take_length, List.drop_zero] at h

/-- Counting settled fragments changes no span: passes that copy them unseen make the spans that
passes over all fragments make. For before every pass the fragments tile the text, and those that
are counted stop before its range and every later one starts. -/
theorem resolve_eq_resolvePlainly (n : Nat) (ranges : List FormatRange) :
    resolve n ranges = resolvePlainly n ranges
      ∧ ∀ done c rest, clampAll n ranges = done ++ c :: rest →
        Progress.IsBetween n done (c :: rest) (done.foldl Progress.step ⟨0, [⟨0, n, []⟩]⟩) := by
  constructor
  · rw [resolve, resolvePlainly]
    split
    · rfl
    · next hn => exact (Progress.isBetween_clampAll (Nat.pos_of_ne_zero hn) ranges).fragments_eq
  · intro done c rest h
    have hn : n ≠ 0 := by
      rintro rfl
      rw [FormatRange.clampAll_zero] at h
      exact absurd h.symm (by simp)
    exact Progress.isBetween_foldl_step (Nat.pos_of_ne_zero hn) h

/-- Two ranges cross and the first of the three fragments is counted when the last range comes. -/
theorem resolve_eq_resolvePlainly_crossing :
    clampAll 6 [⟨2, 9, "i"⟩, ⟨0, 4, "b"⟩, ⟨4, 6, "b"⟩]
        = [⟨0, 4, ⟨0, 4, "b"⟩⟩, ⟨2, 6, ⟨2, 9, "i"⟩⟩] ++ ⟨4, 6, ⟨4, 6, "b"⟩⟩ :: []
      ∧ resolve 6 [⟨2, 9, "i"⟩, ⟨0, 4, "b"⟩, ⟨4, 6, "b"⟩]
        = resolvePlainly 6 [⟨2, 9, "i"⟩, ⟨0, 4, "b"⟩, ⟨4, 6, "b"⟩]
      ∧ Progress.IsBetween 6 [⟨0, 4, ⟨0, 4, "b"⟩⟩, ⟨2, 6, ⟨2, 9, "i"⟩⟩] [⟨4, 6, ⟨4, 6, "b"⟩⟩]
        ⟨1, [⟨0, 2, [⟨0, 4, "b"⟩]⟩, ⟨2, 4, [⟨0, 4, "b"⟩, ⟨2, 9, "i"⟩]⟩,
          ⟨4, 6, [⟨2, 9, "i"⟩]⟩]⟩ := by
  have hclamp : clampAll 6 [⟨2, 9, "i"⟩, ⟨0, 4, "b"⟩, ⟨4, 6, "b"⟩]
      = [⟨0, 4, ⟨0, 4, "b"⟩⟩, ⟨2, 6, ⟨2, 9, "i"⟩⟩] ++ ⟨4, 6, ⟨4, 6, "b"⟩⟩ :: [] := by
    simp [clampAll, FormatRange.clamp?, FormatRange.IsEffective, List.mergeSort]
  have h := resolve_eq_resolvePlainly 6 [⟨2, 9, "i"⟩, ⟨0, 4, "b"⟩, ⟨4, 6, "b"⟩]
  exact ⟨hclamp, h.1, h.2 _ _ _ hclamp⟩

end Span

end PostBlocks
