import PostBlocks.Html.Escape
import PostBlocks.Text.Blank

/-!
# Previews of markup

A preview is the text a reader sees in some markup: tags are dropped, a `br` element counts as a
space, entities are read, blank ends are cut off, and a text of more than thirty characters is cut
to twenty-nine and an ellipsis. A tag reaches from `<` to the next `>`; one that never ends is
dropped with all that follows.
-/

namespace PostBlocks.Html

/-- A tag's text names a line break. -/
def isBreakTag (tag : List Char) : Bool :=
  let name := tag.map Char.toLower
  name == ['b', 'r'] || name == ['b', 'r', '/']

mutual

/-- Markup without its tags, outside of a tag. -/
def stripTags : List Char → List Char
  | [] => []
  | c :: cs => if c = '<' then stripInTag [] cs else c :: stripTags cs

/-- Markup without its tags, inside a tag of which the given text has been read, latest character
first. -/
def stripInTag (tag : List Char) : List Char → List Char
  | [] => []
  | c :: cs =>
    if c = '>' then
      if isBreakTag tag.reverse then ' ' :: stripTags cs else stripTags cs
    else stripInTag (c :: tag) cs

end

/-- The longest text that a preview shows in full. -/
def previewLength : Nat := 30

/-- A text of at most `previewLength` characters, cut off with an ellipsis if need be. -/
def shorten (cs : List Char) : List Char :=
  if previewLength < cs.length then cs.take (previewLength - 1) ++ ['…'] else cs

/-- The preview of some markup. -/
def preview (html : List Char) : List Char :=
  shorten (Text.trim (unescapeChars (stripTags html)))

end PostBlocks.Html
