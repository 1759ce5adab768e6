import PostBlocks.Proofs.Inline.Settled

/-!
# The minimal partition

The spans of a text are what one would write down from the ranges at a glance: the text is cut at
its two ends and wherever an effective range starts or stops, nowhere else, and between two
neighbouring cuts a span carries the ranges that cover it, by their start
(`Span.exists_resolve_eq`).

The passes never look at the ranges that way. What a run of them keeps is `Span.Resolves`: after
some ranges the fragments tile the text, they begin and end where it does or where one of those
ranges does, and at each character a fragment carries the ranges over that character, in the order
in which they were laid. One pass adds one range to this (`Span.Resolves.pass`). That a range covers
a whole span as soon as it covers its first character holds only in the end, because no range stops
in the middle of a span (`Span.Resolves.formats_eq`).
-/

namespace PostBlocks

open PostBlocks.Span (Tiles)

/-! ### Sorting some of a list -/

section Sorting

variable {α : Type} {le : α → α → Bool}

/-- A list has one cut at most with a property on its left only. -/
theorem append_inj_of_forall {p : α → Bool} {as bs cs ds : List α} (h : as ++ bs = cs ++ ds)
    (has : ∀ x ∈ as, p x = true) (hbs : ∀ x ∈ bs, p x = false)
    (hcs : ∀ x ∈ cs, p x = true) (hds : ∀ x ∈ ds, p x = false) : as = cs ∧ bs = ds := by
  have hfilter := congrArg (List.filter p) h
  rw [List.filter_append, List.filter_append, List.filter_eq_self.2 has,
    List.filter_eq_self.2 hcs, List.filter_eq_nil_iff.2 (by simpa using hbs),
    List.filter_eq_nil_iff.2 (by simpa using hds), List.append_nil, List.append_nil] at hfilter
  exact ⟨hfilter, List.append_cancel_left (hfilter ▸ h)⟩

/-- Sorting keeps the order of ties, so it makes no difference whether some members are left out
before or after it. -/
theorem filter_mergeSort (htrans : ∀ a b c, le a b = true → le b c = true → le a c = true)
    (htotal : ∀ a b, (le a b || le b a) = true) (p : α → Bool) (l : List α) :
    (l.mergeSort le).filter p = (l.filter p).mergeSort le := by
  induction l with
  | nil => rw [List.mergeSort_nil, List.filter_nil, List.mergeSort_nil]
  | cons a l ih =>
    -- the first member goes behind those that are less, which are the same ones on both sides
    obtain ⟨as, bs, hcons, hl, has⟩ := List.mergeSort_cons htrans htotal a l
    rw [hl, List.filter_append] at ih
    rw [hcons, List.filter_append]
    by_cases ha : p a = true
    · rw [List.filter_cons_of_pos ha, List.filter_cons_of_pos ha]
      obtain ⟨cs, ds, hcons', hl', hcs⟩ := List.mergeSort_cons htrans htotal a (l.filter p)
      have hsorted := List.pairwise_mergeSort htrans htotal (a :: l)
      have hsorted' := List.pairwise_mergeSort htrans htotal (a :: l.filter p)
      rw [hcons, List.pairwise_append, List.pairwise_cons] at hsorted
      rw [hcons', List.pairwise_append, List.pairwise_cons] at hsorted'
      obtain ⟨hcs', hds'⟩ := append_inj_of_forall (p := fun b ↦ !le a b) (ih.trans hl')
        (fun b hb ↦ has b ((List.mem_filter.1 hb).1))
        (fun b hb ↦ by simpa using hsorted.2.1.1 b ((List.mem_filter.1 hb).1)) hcs
        (fun b hb ↦ by simpa using hsorted'.2.1.1 b hb)
      rw [hcons', hcs', hds']
    · rw [List.filter_cons_of_neg ha, List.filter_cons_of_neg ha, ih]

end Sorting

/-! ### Where fragments begin and end -/

namespace Span

/-- Where some fragments begin, and where the last of them ends. -/
def bounds (n : Nat) (ss : List Span) : List Nat :=
  ss.map (·.start) ++ [n]

namespace Tiles

variable {a b : Nat} {ss : List Span}

theorem exists_bounds_eq (h : Tiles a b ss) : ∃ bs, bounds b ss = a :: bs := by
  obtain _ | _ := h
  · exact ⟨[], rfl⟩
  · exact ⟨_, rfl⟩

/-- The spans of a tiling are the stretches between its bounds. -/
theorem eq_zipWith {f : Nat → Nat → List FormatRange} (h : Tiles a b ss)
    (hf : ∀ s ∈ ss, s.formats = f s.start s.stop) :
    ss = (bounds b ss).zipWith (fun x y ↦ ⟨x, y, f x y⟩) (bounds b ss).tail := by
  induction h with
  | nil a => rfl
  | @cons b s ss _ h ih =>
    obtain ⟨hs, hss⟩ := List.forall_mem_cons.1 hf
    obtain ⟨bs, hbs⟩ := h.exists_bounds_eq
    have hcons : bounds b (s :: ss) = s.start :: s.stop :: bs := congrArg (s.start :: ·) hbs
    have ih := ih hss
    rw [hbs, List.tail_cons] at ih
    rw [hcons, List.tail_cons, List.zipWith_cons_cons, ← ih, ← hs]

theorem le_of_mem_bounds (h : Tiles a b ss) {x : Nat} (hx : x ∈ bounds b ss) : a ≤ x := by
  induction h with
  | nil a => exact Nat.le_of_eq (List.mem_singleton.1 hx).symm
  | cons hs _ ih =>
    rcases List.mem_cons.1 hx with rfl | hx
    · exact Nat.le_refl _
    · exact Nat.le_of_lt (Nat.lt_of_lt_of_le hs (ih hx))

/-- The bounds of a tiling increase. -/
theorem pairwise_bounds (h : Tiles a b ss) : (bounds b ss).Pairwise (· < ·) := by
  induction h with
  | nil => exact List.pairwise_singleton _ _
  | cons hs h ih =>
    exact List.pairwise_cons.2 ⟨fun x hx ↦ Nat.lt_of_lt_of_le hs (h.le_of_mem_bounds hx), ih⟩

/-- No bound lies inside a span. -/
theorem stop_le_of_mem_bounds (h : Tiles a b ss) {s : Span} (hs : s ∈ ss) {x : Nat}
    (hx : x ∈ bounds b ss) (hlt : s.start < x) : s.stop ≤ x := by
  induction h with
  | nil => cases hs
  | @cons b t ss ht h ih =>
    rcases List.mem_cons.1 hx with rfl | hxs
    · rcases List.mem_cons.1 hs with rfl | hss
      · exact absurd hlt (Nat.lt_irrefl _)
      · -- the bound is in front of all later spans
        have hmem : s.start ∈ bounds b ss := List.mem_append_left _ (List.mem_map_of_mem hss)
        exact absurd (Nat.lt_of_lt_of_le ht (h.le_of_mem_bounds hmem)) (Nat.lt_asymm hlt)
    · rcases List.mem_cons.1 hs with rfl | hss
      · exact h.le_of_mem_bounds hxs
      · exact ih hss hxs

theorem start_lt_stop (h : Tiles a b ss) {s : Span} (hs : s ∈ ss) : s.start < s.stop := by
  induction h with
  | nil => cases hs
  | cons ht _ ih =>
    rcases List.mem_cons.1 hs with rfl | hs
    · exact ht
    · exact ih hs

/-- Each character of the stretch lies in a span. -/
theorem exists_mem (h : Tiles a b ss) {x : Nat} (ha : a ≤ x) (hb : x < b) :
    ∃ s ∈ ss, s.start ≤ x ∧ x < s.stop := by
  induction h with
  | nil => omega
  | @cons b s ss hs _ ih =>
    by_cases hx : x < s.stop
    · exact ⟨s, List.mem_cons_self, ha, hx⟩
    · obtain ⟨t, ht, hmem⟩ := ih (Nat.not_lt.1 hx) hb
      exact ⟨t, List.mem_cons_of_mem _ ht, hmem⟩

end Tiles

end Span

/-! ### One pass -/

namespace ClampedRange

/-- A range over a character of the text. -/
def Covers (c : ClampedRange) (x : Nat) : Prop :=
  c.start ≤ x ∧ x < c.stop

instance (c : ClampedRange) (x : Nat) : Decidable (c.Covers x) :=
  inferInstanceAs (Decidable (_ ∧ _))

variable {c : ClampedRange} {s : Span}

/-- The pieces of a fragment: the fragment itself when the range does not meet it, else what is in
front of the range, under it and behind it. -/
theorem mem_cut_iff {t : Span} : t ∈ c.cut s ↔
    ((c.stop ≤ s.start ∨ s.stop ≤ c.start) ∧ t = s)
      ∨ (s.start < c.stop ∧ c.start < s.stop)
        ∧ ((s.start < c.start ∧ t = ⟨s.start, c.start, s.formats⟩)
          ∨ t = ⟨max s.start c.start, min s.stop c.stop, s.formats ++ [c.range]⟩
          ∨ (c.stop < s.stop ∧ t = ⟨c.stop, s.stop, s.formats⟩)) := by
  rw [cut]
  split
  · next hapart =>
    have hmeet : ¬(s.start < c.stop ∧ c.start < s.stop) := by omega
    simp only [List.mem_singleton, hapart, hmeet, true_and, false_and, or_false]
  · next hapart =>
    have hmeet : s.start < c.stop ∧ c.start < s.stop := by omega
    simp only [List.mem_append, List.mem_ite_nil_right, List.mem_singleton, hapart, hmeet,
      and_self, true_and, false_and, false_or, or_assoc]

/-- A range cuts a fragment where it starts and where it stops. -/
theorem exists_mem_cut_iff (hc : c.start < c.stop) (hs : s.start < s.stop) {x : Nat} :
    (∃ t ∈ c.cut s, t.start = x)
      ↔ x = s.start ∨ (x = c.start ∨ x = c.stop) ∧ s.start ≤ x ∧ x < s.stop := by
  simp only [mem_cut_iff]
  constructor
  · rintro ⟨t, ⟨-, rfl⟩ | ⟨hmeet, ⟨hlt, rfl⟩ | rfl | ⟨hlt, rfl⟩⟩, rfl⟩
    · exact .inl rfl
    · exact .inl rfl
    · simp only
      omega
    · exact .inr ⟨.inr rfl, Nat.le_of_lt hmeet.1, hlt⟩
  · intro hx
    by_cases hmeet : s.start < c.stop ∧ c.start < s.stop
    · by_cases hbefore : x = s.start ∧ s.start < c.start
      · exact ⟨_, .inr ⟨hmeet, .inl ⟨hbefore.2, rfl⟩⟩, hbefore.1.symm⟩
      · by_cases hafter : x = c.stop
        · exact ⟨_, .inr ⟨hmeet, .inr (.inr ⟨by omega, rfl⟩)⟩, hafter.symm⟩
        · exact ⟨_, .inr ⟨hmeet, .inr (.inl rfl)⟩, by simp only; omega⟩
    · exact ⟨s, .inl ⟨by omega, rfl⟩, by omega⟩

/-- A piece lies inside its fragment, and has the range added where the range covers it. -/
theorem formats_of_mem_cut {t : Span} (ht : t ∈ c.cut s) {x : Nat} (hx : t.start ≤ x ∧ x < t.stop) :
    (s.start ≤ x ∧ x < s.stop)
      ∧ t.formats = if c.Covers x then s.formats ++ [c.range] else s.formats := by
  rcases mem_cut_iff.1 ht with ⟨hapart, rfl⟩ | ⟨hmeet, ⟨hlt, rfl⟩ | rfl | ⟨hlt, rfl⟩⟩
  · have hcov : ¬c.Covers x := fun hcov ↦ by simp only [Covers] at hcov; omega
    exact ⟨hx, (if_neg hcov).symm⟩
  · have hcov : ¬c.Covers x := fun hcov ↦ by simp only [Covers] at hcov hx; omega
    exact ⟨by simp only at hx; omega, (if_neg hcov).symm⟩
  · have hcov : c.Covers x := by simp only [Covers] at hx ⊢; omega
    exact ⟨by simp only at hx; omega, (if_pos hcov).symm⟩
  · have hcov : ¬c.Covers x := fun hcov ↦ by simp only [Covers] at hcov hx; omega
    exact ⟨by simp only at hx; omega, (if_neg hcov).symm⟩

end ClampedRange

namespace Span

theorem mem_bounds_iff {n x : Nat} {ss : List Span} :
    x ∈ bounds n ss ↔ (∃ s ∈ ss, s.start = x) ∨ x = n := by
  rw [bounds, List.mem_append, List.mem_map, List.mem_singleton]

/-- A pass adds the two ends of its range to the bounds. -/
theorem Tiles.mem_bounds_pass {a b : Nat} {ss : List Span} (h : Tiles a b ss) {c : ClampedRange}
    (hc : c.start < c.stop) (ha : a ≤ c.start) (hb : c.stop ≤ b) {x : Nat} :
    x ∈ bounds b (c.pass ss) ↔ x ∈ bounds b ss ∨ x = c.start ∨ x = c.stop := by
  have hpass : (∃ t ∈ c.pass ss, t.start = x) ↔ ∃ s ∈ ss, ∃ t ∈ c.cut s, t.start = x := by
    simp only [ClampedRange.pass, List.mem_flatMap]
    constructor
    · rintro ⟨t, ⟨s, hs, ht⟩, hx⟩
      exact ⟨s, hs, t, ht, hx⟩
    · rintro ⟨s, hs, t, ht, hx⟩
      exact ⟨t, ⟨s, hs, ht⟩, hx⟩
  rw [mem_bounds_iff, mem_bounds_iff, hpass]
  constructor
  · rintro (⟨s, hs, hcut⟩ | hx)
    · rcases (ClampedRange.exists_mem_cut_iff hc (h.start_lt_stop hs)).1 hcut with hx | ⟨hx, -⟩
      · exact .inl (.inl ⟨s, hs, hx.symm⟩)
      · exact .inr hx
    · exact .inl (.inr hx)
  · have hend : x = c.start ∨ x = c.stop → (∃ s ∈ ss, ∃ t ∈ c.cut s, t.start = x) ∨ x = b := by
      intro hx
      -- the end of the range falls into some fragment, unless the text ends there
      by_cases hlt : x < b
      · obtain ⟨s, hs, hmem⟩ := h.exists_mem (show a ≤ x by omega) hlt
        have hcut := (ClampedRange.exists_mem_cut_iff hc (h.start_lt_stop hs)).2 (.inr ⟨hx, hmem⟩)
        exact .inl ⟨s, hs, hcut⟩
      · exact .inr (by omega)
    rintro ((⟨s, hs, hx⟩ | hx) | hx)
    · have hcut := (ClampedRange.exists_mem_cut_iff hc (h.start_lt_stop hs)).2 (.inl hx.symm)
      exact .inl ⟨s, hs, hcut⟩
    · exact .inr hx
    · exact hend hx

/-! ### All passes -/

/-- What passes with some ranges make of a text: a tiling that begins and ends spans where the text
or one of the ranges does, and that carries the ranges over each character in their order. -/
structure Resolves (n : Nat) (cs : List ClampedRange) (ss : List Span) : Prop where
  tiles : Tiles 0 n ss
  mem_bounds : ∀ x, x ∈ bounds n ss ↔ (x = 0 ∨ x = n) ∨ ∃ c ∈ cs, x = c.start ∨ x = c.stop
  formats : ∀ s ∈ ss, ∀ x, s.start ≤ x ∧ x < s.stop →
    s.formats = (cs.filter (·.Covers x)).map (·.range)

namespace Resolves

variable {n : Nat} {cs ds : List ClampedRange} {ss : List Span}

/-- Before the first pass the text is one fragment. -/
theorem start (hn : 0 < n) : Resolves n [] [⟨0, n, []⟩] where
  tiles := .single 0 n [] hn
  mem_bounds x := by simp [bounds]
  formats s hs _ _ := by rw [List.mem_singleton.1 hs]; rfl

/-- A pass adds its range to those that the fragments resolve. -/
theorem pass (h : Resolves n cs ss) {c : ClampedRange} (hc : c.start < c.stop) (hn : c.stop ≤ n) :
    Resolves n (cs ++ [c]) (c.pass ss) where
  tiles := ClampedRange.tiles_pass hc h.tiles
  mem_bounds x := by
    rw [h.tiles.mem_bounds_pass hc (Nat.zero_le _) hn, h.mem_bounds, or_assoc]
    simp only [List.mem_append, List.mem_singleton, or_and_right, exists_or, exists_eq_left]
  formats t ht x hx := by
    obtain ⟨s, hs, ht⟩ := List.mem_flatMap.1 ht
    obtain ⟨hmem, hformats⟩ := ClampedRange.formats_of_mem_cut ht hx
    rw [hformats, h.formats s hs x hmem, List.filter_append, List.map_append]
    by_cases hcov : c.Covers x
    · rw [if_pos hcov, List.filter_cons_of_pos (by simpa using hcov)]
      rfl
    · rw [if_neg hcov, List.filter_cons_of_neg (by simpa using hcov)]
      exact (List.append_nil _).symm

/-- All passes together add all of their ranges. -/
theorem foldl_pass (h : Resolves n cs ss) (hds : ∀ c ∈ ds, c.start < c.stop ∧ c.stop ≤ n) :
    Resolves n (cs ++ ds) (ds.foldl (fun fragments c ↦ c.pass fragments) ss) := by
  induction ds generalizing cs ss with
  | nil => rwa [List.append_nil]
  | cons c ds ih =>
    obtain ⟨hc, hds⟩ := List.forall_mem_cons.1 hds
    have := ih (h.pass hc.1 hc.2) hds
    rwa [List.append_assoc] at this

/-- A span carries the ranges over all of it: a range over its first character does not stop
before the span does. -/
theorem formats_eq (h : Resolves n cs ss) {s : Span} (hs : s ∈ ss) :
    s.formats = (cs.filter fun c ↦ c.start ≤ s.start ∧ s.stop ≤ c.stop).map (·.range) := by
  have hlt := h.tiles.start_lt_stop hs
  rw [h.formats s hs s.start ⟨Nat.le_refl _, hlt⟩]
  refine congrArg _ (List.filter_congr fun c hc ↦ decide_eq_decide.2 (and_congr_right fun _ ↦ ?_))
  constructor
  · intro hcov
    exact h.tiles.stop_le_of_mem_bounds hs ((h.mem_bounds _).2 (.inr ⟨c, hc, .inr rfl⟩)) hcov
  · exact Nat.lt_of_lt_of_le hlt

/-- The spans are told from their bounds and the ranges. -/
theorem eq_zipWith (h : Resolves n cs ss) :
    ss = (bounds n ss).zipWith
      (fun a b ↦ ⟨a, b, (cs.filter fun c ↦ c.start ≤ a ∧ b ≤ c.stop).map (·.range)⟩)
      (bounds n ss).tail :=
  h.tiles.eq_zipWith fun _ hs ↦ h.formats_eq hs

end Resolves

end Span

/-! ### The spans of a text -/

namespace FormatRange

/-- The effective ranges that cover the characters from `a` to `b` of a text of `n` characters, by
their start; those that start together are in the order given. -/
def covering (n : Nat) (ranges : List FormatRange) (a b : Nat) : List FormatRange :=
  (ranges.filter fun r ↦ r.IsEffective n ∧ r.start ≤ a ∧ b ≤ min r.stop n).mergeSort
    fun q r ↦ q.start ≤ r.start

/-- Of ranges that are clamped one by one, those over a stretch are the ranges that cover it. -/
theorem map_range_filter_clamp? (n : Nat) (ranges : List FormatRange) (a b : Nat) :
    ((ranges.filterMap (clamp? n)).filter fun c ↦ c.start ≤ a ∧ b ≤ c.stop).map (·.range)
      = ranges.filter fun r ↦ r.IsEffective n ∧ r.start ≤ a ∧ b ≤ min r.stop n := by
  induction ranges with
  | nil => rfl
  | cons r ranges ih =>
    by_cases heff : r.IsEffective n
    · have hr : clamp? n r = some ⟨r.start, min r.stop n, r⟩ := if_pos heff
      rw [List.filterMap_cons_some hr, List.filter_cons, List.filter_cons, ← ih]
      simp only [heff, true_and]
      split <;> rfl
    · have hr : clamp? n r = none := if_neg heff
      rw [List.filterMap_cons_none hr, ih, List.filter_cons_of_neg (by simp [heff])]

/-- Of the clamped ranges in order, those over a stretch are the ranges that cover it, in order. -/
theorem map_range_filter_clampAll (n : Nat) (ranges : List FormatRange) (a b : Nat) :
    ((clampAll n ranges).filter fun c ↦ c.start ≤ a ∧ b ≤ c.stop).map (·.range)
      = covering n ranges a b := by
  -- a clamped range starts where its range does, so forgetting the clamp keeps the order
  have hstart : ∀ c ∈ ranges.filterMap (clamp? n), c.start = c.range.start := by
    intro c hc
    obtain ⟨r, -, -, rfl⟩ := mem_clampAll_iff.1 (List.mem_mergeSort.2 hc)
    rfl
  rw [clampAll, filter_mergeSort ClampedRange.start_le_trans ClampedRange.start_le_total, covering,
    ← map_range_filter_clamp?]
  refine List.map_mergeSort fun c hc d hd ↦ ?_
  rw [hstart c (List.mem_filter.1 hc).1, hstart d (List.mem_filter.1 hd).1]

end FormatRange

namespace Span

open FormatRange (covering clampAll)

/-- The passes resolve the effective ranges, clamped and by their start. -/
theorem resolves_resolve (n : Nat) (ranges : List FormatRange) :
    Resolves n (clampAll n ranges) (resolve n ranges) := by
  rw [resolve]
  split
  · next hn =>
    subst hn
    rw [FormatRange.clampAll_zero]
    exact ⟨.nil 0, fun x ↦ by simp [bounds], fun s hs ↦ absurd hs List.not_mem_nil⟩
  · next hn =>
    have hpos : 0 < n := Nat.pos_of_ne_zero hn
    rw [(Progress.isBetween_clampAll hpos ranges).fragments_eq]
    exact (Resolves.start hpos).foldl_pass fun c hc ↦
      ⟨FormatRange.start_lt_stop_of_mem_clampAll hc, FormatRange.stop_le_of_mem_clampAll hc⟩

/-- An empty text has no spans. The spans of a text are the stretches between neighbouring bounds,
which are the ends of the text and of its effective ranges, each once and in increasing order; and a
span carries the effective ranges that cover it, by their start, ties in the order given. -/
theorem exists_resolve_eq (n : Nat) (ranges : List FormatRange) :
    resolve 0 ranges = [] ∧ ∃ bs : List Nat, bs.Pairwise (· < ·)
      ∧ (∀ x, x ∈ bs ↔ (x = 0 ∨ x = n)
          ∨ ∃ r ∈ ranges, r.IsEffective n ∧ (x = r.start ∨ x = min r.stop n))
      ∧ resolve n ranges = bs.zipWith (fun a b ↦ ⟨a, b, covering n ranges a b⟩) bs.tail := by
  have h := resolves_resolve n ranges
  refine ⟨rfl, bounds n (resolve n ranges), h.tiles.pairwise_bounds, fun x ↦ ?_,
    h.tiles.eq_zipWith fun s hs ↦ ?_⟩
  · rw [h.mem_bounds]
    refine or_congr_right ⟨?_, ?_⟩
    · rintro ⟨c, hc, hx⟩
      obtain ⟨r, hr, heff, rfl⟩ := FormatRange.mem_clampAll_iff.1 hc
      exact ⟨r, hr, heff, hx⟩
    · rintro ⟨r, hr, heff, hx⟩
      exact ⟨_, FormatRange.mem_clampAll_iff.2 ⟨r, hr, heff, rfl⟩, hx⟩
  · rw [h.formats_eq hs, FormatRange.map_range_filter_clampAll]

example : resolve 4 [⟨2, 9, "i"⟩, ⟨1, 3, "b"⟩, ⟨3, 3, "b"⟩] =
    [⟨0, 1, []⟩, ⟨1, 2, [⟨1, 3, "b"⟩]⟩, ⟨2, 3, [⟨1, 3, "b"⟩, ⟨2, 9, "i"⟩]⟩,
      ⟨3, 4, [⟨2, 9, "i"⟩]⟩] := by
  cbv

end Span

end PostBlocks
