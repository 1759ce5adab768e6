import PostBlocks.Inline.Render
import PostBlocks.Post.Error
import PostBlocks.Post.Source

/-!
# Building blocks

One builder for each variant of source block. All text is escaped; paragraphs, headings, quotes,
chats and indented texts are rendered with their formatting, quirky texts and list items without.
Quotes of all kinds and indented texts write line feeds as breaks. Images and sounds take the first
media descriptor and carry its address both as an attribute and in their markup.
-/

namespace PostBlocks.Block

/-- Markup between an opening and a closing fragment. -/
def enclose (opening : String) (html : List Char) (closing : String) : String :=
  .ofList (opening.toList ++ html ++ closing.toList)

/-- A text's markup with its formatting. -/
def styled (table : TagTable) (t : StyledText) : List Char :=
  renderInlineChars table t.text.toList t.formatting

/-- A paragraph around some markup. -/
def paragraphOf (html : List Char) : Block :=
  leaf "core/paragraph" [] (enclose "<p>" html "</p>")

/-- A paragraph. -/
def paragraph (table : TagTable) (t : StyledText) : Block :=
  paragraphOf (styled table t)

/-- A heading; the second level goes without saying. -/
def heading (table : TagTable) (level : Nat) (t : StyledText) : Block :=
  let digits := String.ofList (Json.decimalChars level)
  leaf "core/heading" (if level = 2 then [] else [("level", .nat level)])
    (enclose ("<h" ++ digits ++ " class=\"wp-block-heading\">") (styled table t)
      ("</h" ++ digits ++ ">"))

/-- A quote around one paragraph, with a class of its own or without. -/
def quoteOf (className : Option String) (html : List Char) : Block :=
  container "core/quote"
    (match className with
      | none => []
      | some name => [("className", .string name)])
    "<blockquote class=\"wp-block-quote\">" [paragraphOf (Html.breakChars html)] "</blockquote>"

/-- A quote. -/
def quote (table : TagTable) (t : StyledText) : Block :=
  quoteOf none (styled table t)

/-- A chat, set as a quote. -/
def chat (table : TagTable) (t : StyledText) : Block :=
  quoteOf (some "chat") (styled table t)

/-- A quirky text, set as a quote without its formatting. -/
def quirky (t : StyledText) : Block :=
  quoteOf (some "quirky") (Html.escapeChars t.text.toList)

/-- An indented text, set as a pull quote. -/
def indented (table : TagTable) (t : StyledText) : Block :=
  leaf "core/pullquote" []
    (enclose "<figure class=\"wp-block-pullquote\"><blockquote><p>"
      (Html.breakChars (styled table t)) "</p></blockquote></figure>")

/-- A list item, without its formatting. -/
def listItem (t : StyledText) : Block :=
  leaf "core/list-item" [] (enclose "<li>" (Html.escapeChars t.text.toList) "</li>")

/-- The address of the first media descriptor. -/
def firstUrl? (media : List Media) : Option String :=
  media.head?.bind (·.url)

/-- A size as an attribute of an element, with the space in front. -/
def sizeChars (name : String) : Option Nat → List Char
  | none => []
  | some n => ' ' :: name.toList ++ "=\"".toList ++ Json.decimalChars n ++ ['"']

/-- A size as an attribute of a block. -/
def sizeFields (name : String) : Option Nat → Json.Fields
  | none => []
  | some n => [(name, .nat n)]

/-- An image of which the address is known. -/
def imageOf (url : String) (width height : Option Nat) : Block :=
  leaf "core/image"
    (("url", .string url) :: sizeFields "width" width ++ sizeFields "height" height)
    (enclose "<figure class=\"wp-block-image\"><img src=\""
      (Html.escapeChars url.toList ++ '"' :: sizeChars "width" width ++ sizeChars "height" height)
      "></figure>")

/-- A sound of which the address is known. -/
def audioOf (src : String) : Block :=
  leaf "core/audio" [("src", .string src)]
    (enclose "<figure class=\"wp-block-audio\"><audio controls src=\""
      (Html.escapeChars src.toList) "\"></audio></figure>")

/-- The image of the first media descriptor; the block is the one at `index`. -/
def image (index : Nat) : List Media → Except ConvertError Block
  | ⟨some url, width, height⟩ :: _ => .ok (imageOf url width height)
  | _ => .error (.missing index .imageUrl)

/-- The sound of the first media descriptor, else of the block's own address. -/
def audio (index : Nat) (media : List Media) (url : Option String) : Except ConvertError Block :=
  match (firstUrl? media).or url with
  | some src => .ok (audioOf src)
  | none => .error (.missing index .audioUrl)

end PostBlocks.Block
