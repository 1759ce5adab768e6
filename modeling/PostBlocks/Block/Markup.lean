import PostBlocks.Block.Basic
import PostBlocks.Block.Delimiter

/-!
# Writing blocks

The content of a block is its fragments with the output of each child in place of its
placeholder; a block without children contributes its `html`. A block whose placeholders and
children differ in number cannot be written, nor can anything around it: the first such block in
document order is reported.

`Block.render` writes a tree with a function `wrap` around the content of every block. Markup wraps
content in the block's delimiters, or writes a void where there is no content; HTML wraps nothing.
-/

namespace PostBlocks

/-- A block that cannot be written: its children and its placeholders differ in number. -/
structure Imbalance where
  block : String
  children : Nat
  placeholders : Nat
deriving DecidableEq, Repr, Inhabited

namespace Block

/-- Content with each placeholder replaced by the next of `parts`. -/
def interleave : List (Option String) → List (List Char) → List Char
  | [], _ => []
  | some html :: content, parts => html.toList ++ interleave content parts
  | none :: content, part :: parts => part ++ interleave content parts
  | none :: content, [] => interleave content []

mutual

/-- A block with its content wrapped, and so everything inside it. -/
def render (wrap : String → Json.Fields → List Char → List Char) :
    Block → Except Imbalance (List Char)
  | ⟨name, attrs, children, html, content⟩ =>
    if countPlaceholders content ≠ children.length then
      .error ⟨name, children.length, countPlaceholders content⟩
    else do
      let parts ← renderEach wrap children
      return wrap name attrs (if children.isEmpty then html.toList else interleave content parts)

/-- Each block with its content wrapped. -/
def renderEach (wrap : String → Json.Fields → List Char → List Char) :
    List Block → Except Imbalance (List (List Char))
  | [] => .ok []
  | b :: bs => do
    let part ← b.render wrap
    return part :: (← renderEach wrap bs)

end

/-- Content between the delimiters of its block; a void where there is none. -/
def delimit (name : String) (attrs : Json.Fields) (content : List Char) : List Char :=
  if content.isEmpty then Delimiter.write ⟨.void, name, attrs⟩
  else
    Delimiter.write ⟨.opener, name, attrs⟩ ++ content ++ Delimiter.write ⟨.closer, name, attrs⟩

/-- The markup of one block, as characters. -/
def markupChars (b : Block) : Except Imbalance (List Char) :=
  b.render delimit

/-- The HTML of one block, as characters. -/
def htmlChars (b : Block) : Except Imbalance (List Char) :=
  b.render fun _ _ content ↦ content

/-- The markup of a document, as characters. -/
def documentMarkupChars (bs : List Block) : Except Imbalance (List Char) :=
  (renderEach delimit bs).map List.flatten

/-- The HTML of a document, as characters. -/
def documentHtmlChars (bs : List Block) : Except Imbalance (List Char) :=
  (renderEach (fun _ _ content ↦ content) bs).map List.flatten

/-- The markup of one block. -/
def toMarkup (b : Block) : Except Imbalance String :=
  b.markupChars.map .ofList

/-- The HTML of one block, without delimiters. -/
def toHtml (b : Block) : Except Imbalance String :=
  b.htmlChars.map .ofList

/-- The markup of a document: its blocks one after another. -/
def documentMarkup (bs : List Block) : Except Imbalance String :=
  (documentMarkupChars bs).map .ofList

/-- The HTML of a document: its blocks one after another. -/
def documentHtml (bs : List Block) : Except Imbalance String :=
  (documentHtmlChars bs).map .ofList

end Block

end PostBlocks
