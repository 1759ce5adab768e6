import PostBlocks.Html.Escape
import PostBlocks.Inline.Resolve
import PostBlocks.Inline.TagTable

/-!
# Rendering formatted text

A span is written as its text, escaped, inside the elements its formats ask for. Every span opens
and closes its own elements, so elements never overlap across spans; the order of the table, not
of the ranges, decides the nesting.
-/

namespace PostBlocks

/-- The opening tags of some elements, in order. -/
def openTags (tags : List String) : List Char :=
  tags.flatMap fun tag ↦ '<' :: tag.toList ++ ['>']

/-- The closing tags of some elements, the last one first. -/
def closeTags (tags : List String) : List Char :=
  tags.reverse.flatMap fun tag ↦ '<' :: '/' :: tag.toList ++ ['>']

namespace Span

/-- The characters of a text that a span covers. -/
def slice (s : Span) (text : List Char) : List Char :=
  (text.take s.stop).drop s.start

/-- The markup of one span; a span that covers no character leaves none. -/
def render (table : TagTable) (text : List Char) (s : Span) : List Char :=
  match s.slice text with
  | [] => []
  | cs => openTags (table.tagsOf s) ++ Html.escapeChars cs ++ closeTags (table.tagsOf s)

/-- The markup of several spans of one text, one after another. -/
def renderAll (table : TagTable) (text : List Char) (spans : List Span) : List Char :=
  spans.flatMap (render table text)

/-- Spans are rendered one after another, and apart from each other. -/
theorem renderAll_cons (table : TagTable) (text : List Char) (s : Span) (spans : List Span) :
    renderAll table text (s :: spans) = s.render table text ++ renderAll table text spans :=
  List.flatMap_cons

end Span

/-- The markup of a text under formatting ranges. -/
def renderInlineChars (table : TagTable) (text : List Char) (ranges : List FormatRange) :
    List Char :=
  Span.renderAll table text (Span.resolve text.length ranges)

/-- `renderInlineChars` on strings. -/
def renderInline (table : TagTable) (text : String) (ranges : List FormatRange) : String :=
  .ofList (renderInlineChars table text.toList ranges)

end PostBlocks
