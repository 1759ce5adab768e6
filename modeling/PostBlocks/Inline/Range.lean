/-!
# Formatting ranges and spans

A post annotates its text with *ranges*: a kind such as `bold` over the half-open stretch from
`start` to `stop`, counted in characters. Ranges come in any order and overlap freely. A *span* is
a stretch on which the covering ranges do not change, together with those ranges.
-/

namespace PostBlocks

/-- A kind of format over the characters `start ≤ i < stop` of a text. -/
structure FormatRange where
  start : Nat
  stop : Nat
  kind : String
deriving DecidableEq, Repr, Inhabited

/-- A stretch of text together with the ranges that cover it. -/
structure Span where
  start : Nat
  stop : Nat
  formats : List FormatRange
deriving DecidableEq, Repr, Inhabited

namespace Span

/-- The number of characters in the span. -/
def length (s : Span) : Nat :=
  s.stop - s.start

/-- A span that starts where it stops holds no character. -/
def isEmpty (s : Span) : Bool :=
  s.start == s.stop

/-- Some covering range is of the given kind. -/
def hasFormat (s : Span) (kind : String) : Bool :=
  s.formats.any (·.kind == kind)

end Span

end PostBlocks
