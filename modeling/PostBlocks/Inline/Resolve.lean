import PostBlocks.Inline.Range

/-!
# Resolving ranges into spans

`resolve n ranges` splits the characters `0 ≤ i < n` of a text into spans. Ranges are clamped to
the text, those that cover nothing are dropped, and the rest are taken in order of their start,
ties in the order given. Each pass cuts the fragments that one range meets and leaves the others
alone.

Because the ranges are ordered, a fragment that ends before the current range starts is *settled*:
no later range can meet it. `resolve` counts the settled fragments and copies them without
looking. `resolvePlainly` is the same sequence of passes without the count, each pass looking at
every fragment.
-/

namespace PostBlocks

/-- A range cut down to the text it annotates. -/
structure ClampedRange where
  start : Nat
  stop : Nat
  range : FormatRange
deriving DecidableEq, Repr, Inhabited

namespace FormatRange

/-- A range is effective on a text of `n` characters when it covers one of them. -/
def IsEffective (n : Nat) (r : FormatRange) : Prop :=
  r.start < min r.stop n

instance (n : Nat) (r : FormatRange) : Decidable (r.IsEffective n) :=
  inferInstanceAs (Decidable (_ < _))

/-- An effective range, cut off at the end of the text. -/
def clamp? (n : Nat) (r : FormatRange) : Option ClampedRange :=
  if r.IsEffective n then some ⟨r.start, min r.stop n, r⟩ else none

/-- The effective ranges, clamped, by start; ranges that start together stay in order. -/
def clampAll (n : Nat) (ranges : List FormatRange) : List ClampedRange :=
  (ranges.filterMap (clamp? n)).mergeSort fun a b ↦ a.start ≤ b.start

end FormatRange

namespace ClampedRange

/-- What becomes of one fragment when a range is laid over it: the fragment itself when they do
not meet, else the part before the range, the part under it and the part after it. -/
def cut (c : ClampedRange) (s : Span) : List Span :=
  if c.stop ≤ s.start ∨ s.stop ≤ c.start then [s]
  else
    (if s.start < c.start then [⟨s.start, c.start, s.formats⟩] else [])
      ++ [⟨max s.start c.start, min s.stop c.stop, s.formats ++ [c.range]⟩]
      ++ (if c.stop < s.stop then [⟨c.stop, s.stop, s.formats⟩] else [])

/-- One pass over all fragments. -/
def pass (c : ClampedRange) (fragments : List Span) : List Span :=
  fragments.flatMap c.cut

end ClampedRange

namespace Span

/-- Fragments, of which the first `settled` lie before every range still to come. -/
structure Progress where
  settled : Nat
  fragments : List Span

/-- One pass that copies the settled fragments and counts them afresh. -/
def Progress.step (p : Progress) (c : ClampedRange) : Progress :=
  let fragments := p.fragments.take p.settled ++ c.pass (p.fragments.drop p.settled)
  ⟨(fragments.takeWhile fun s ↦ s.stop ≤ c.start).length, fragments⟩

/-- The spans of a text of `n` characters under the given ranges. -/
def resolve (n : Nat) (ranges : List FormatRange) : List Span :=
  if n = 0 then []
  else ((FormatRange.clampAll n ranges).foldl Progress.step ⟨0, [⟨0, n, []⟩]⟩).fragments

/-- The spans of a text, every pass looking at every fragment. -/
def resolvePlainly (n : Nat) (ranges : List FormatRange) : List Span :=
  if n = 0 then []
  else (FormatRange.clampAll n ranges).foldl (fun fragments c ↦ c.pass fragments) [⟨0, n, []⟩]

end Span

end PostBlocks
