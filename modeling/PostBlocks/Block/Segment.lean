import PostBlocks.Block.Delimiter

/-!
# Markup cut at its delimiters

A source is cut, left to right, at the delimiters it contains: each *segment* is a delimiter with
the literal markup in front of it, and what follows the last delimiter is the `tail`. Each delimiter
is kept as it was written too: offsets are not stored, they are the byte sizes of what lies in
front.
-/

namespace PostBlocks

/-- A delimiter, as read and as written, with the literal markup in front of it. -/
structure Segment where
  literal : List Char
  mark : Mark
  written : List Char
deriving Repr, BEq, Inhabited

/-- A source cut at its delimiters. -/
structure Segments where
  segments : List Segment
  tail : List Char
deriving Repr, BEq, Inhabited

namespace Segments

/-- One more character of literal markup at the front. -/
def push (c : Char) : Segments → Segments
  | ⟨[], tail⟩ => ⟨[], c :: tail⟩
  | ⟨s :: ss, tail⟩ => ⟨{ s with literal := c :: s.literal } :: ss, tail⟩

/-- A source cut at its delimiters. -/
def ofChars (cs : List Char) : Segments :=
  match _h : Mark.scan? cs with
  | some (mark, rest) =>
    let after := ofChars rest
    ⟨⟨[], mark, cs.take (cs.length - rest.length)⟩ :: after.segments, after.tail⟩
  | none =>
    match cs with
    | [] => ⟨[], []⟩
    | c :: cs => push c (ofChars cs)
termination_by cs.length
decreasing_by
  · obtain ⟨taken, hne, hcs⟩ := Mark.suffix_scan? _h
    have := List.length_pos_iff.2 hne
    simp only [hcs, List.length_append]
    omega
  · simp

end Segments

end PostBlocks
