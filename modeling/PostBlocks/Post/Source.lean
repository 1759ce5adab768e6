import PostBlocks.Block.Listing
import PostBlocks.Inline.Range

/-!
# Source blocks

A post in the Neue Post Format is a list of content blocks. What a block may contain is wide open;
what the converter does with it depends on one of eleven variants, into which each block is sorted
once, when the post is decoded.
-/

namespace PostBlocks

/-- One version of an image or a sound file. -/
structure Media where
  url : Option String
  width : Option Nat
  height : Option Nat
deriving DecidableEq, Repr, Inhabited

/-- A text with its formatting ranges. -/
structure StyledText where
  text : String
  formatting : List FormatRange
deriving DecidableEq, Repr, Inhabited

/-- A content block, sorted by how it is converted. -/
inductive SourceBlock where
  | paragraph (text : StyledText)
  | heading1 (text : StyledText)
  | heading2 (text : StyledText)
  | quote (text : StyledText)
  | chat (text : StyledText)
  | quirky (text : StyledText)
  | indented (text : StyledText)
  | listItem (kind : ListKind) (text : StyledText)
  | image (media : List Media)
  | audio (media : List Media) (url : Option String)
  /-- A block of any other type, which becomes a paragraph. -/
  | fallback (kind : String) (text : StyledText)
deriving DecidableEq, Repr, Inhabited

namespace SourceBlock

/-- The text a block carries. -/
def styledText? : SourceBlock → Option StyledText
  | paragraph t | heading1 t | heading2 t | quote t | chat t | quirky t | indented t => some t
  | listItem _ t | fallback _ t => some t
  | image _ | audio _ _ => none

/-- The name of a block's variant. -/
def variant : SourceBlock → String
  | paragraph _ => "paragraph"
  | heading1 _ => "heading1"
  | heading2 _ => "heading2"
  | quote _ => "quote"
  | chat _ => "chat"
  | quirky _ => "quirky"
  | indented _ => "indented"
  | listItem _ _ => "list-item"
  | image _ => "image"
  | audio _ _ => "audio"
  | fallback _ _ => "fallback"

end SourceBlock

end PostBlocks
