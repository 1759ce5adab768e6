import PostBlocks.Json.Basic

/-!
# Blocks

A document is a list of blocks. A block has a name, attributes, children and literal markup. Its
`content` interleaves fragments of markup with one placeholder (`none`) a child, so a block can be
written out by someone who does not know its kind. A block is *balanced* when this holds for it and
for everything inside it.
-/

namespace PostBlocks

/-- A block: `content` holds its markup with a `none` where a child goes. -/
structure Block where
  name : String
  attrs : Json.Fields
  children : List Block
  html : String
  content : List (Option String)
deriving Repr, BEq, Inhabited

namespace Block

/-- A block without children; without markup it has no fragment at all. -/
def leaf (name : String) (attrs : Json.Fields) (html : String) : Block :=
  ⟨name, attrs, [], html, if html.isEmpty then [] else [some html]⟩

/-- A block whose children stand between an opening and a closing fragment. -/
def container (name : String) (attrs : Json.Fields) (opening : String) (children : List Block)
    (closing : String) : Block :=
  ⟨name, attrs, children, opening ++ closing,
    some opening :: children.map (fun _ ↦ none) ++ [some closing]⟩

/-- The number of placeholders in some content. -/
def countPlaceholders (content : List (Option String)) : Nat :=
  content.countP (·.isNone)

/-- The number of placeholders in a block's own content. -/
def placeholders (b : Block) : Nat :=
  countPlaceholders b.content

mutual

/-- The block and everything inside it has one placeholder a child. -/
def isBalanced : Block → Bool
  | ⟨_, _, children, _, content⟩ =>
    countPlaceholders content == children.length && areBalanced children

/-- `isBalanced` for each block. -/
def areBalanced : List Block → Bool
  | [] => true
  | b :: bs => b.isBalanced && areBalanced bs

end

mutual

/-- Equality of blocks in which the order of attributes does not count. -/
def same : Block → Block → Bool
  | ⟨name, attrs, children, html, content⟩, ⟨name', attrs', children', html', content'⟩ =>
    name == name' && (Json.object attrs).same (.object attrs') && sameAll children children'
      && html == html' && content == content'

/-- Block by block. -/
def sameAll : List Block → List Block → Bool
  | [], [] => true
  | a :: as, b :: bs => a.same b && sameAll as bs
  | _, _ => false

end

end Block

end PostBlocks
