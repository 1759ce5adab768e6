import PostBlocks.Block.Nesting
import PostBlocks.Post.Build
import PostBlocks.Post.Decode

/-!
# Converting posts

A post becomes a block tree: each source block is built, in order, and runs of list items are
grouped. The first block that cannot be built fails the whole post. The functions that start from
a post's text or value go on to block markup.
-/

namespace PostBlocks

/-- What the source block at `index` is built into. -/
def SourceBlock.build (table : TagTable) (index : Nat) : SourceBlock → Except ConvertError Built
  | .paragraph t => .ok (.block (Block.paragraph table t))
  | .heading1 t => .ok (.block (Block.heading table 1 t))
  | .heading2 t => .ok (.block (Block.heading table 2 t))
  | .quote t => .ok (.block (Block.quote table t))
  | .chat t => .ok (.block (Block.chat table t))
  | .quirky t => .ok (.block (Block.quirky t))
  | .indented t => .ok (.block (Block.indented table t))
  | .listItem kind t => .ok (.item kind (Block.listItem t))
  | .image media => (Block.image index media).map .block
  | .audio media url => (Block.audio index media url).map .block
  | .fallback _ t => .ok (.block (Block.paragraph table t))

/-- What the source blocks from `index` on are built into. -/
def SourceBlock.buildAll (table : TagTable) (index : Nat) :
    List SourceBlock → Except ConvertError (List Built)
  | [] => .ok []
  | s :: ss => do
    let built ← s.build table index
    return built :: (← buildAll table (index + 1) ss)

/-- The block tree of some source blocks. -/
def Block.ofSource (table : TagTable) (ss : List SourceBlock) : Except ConvertError (List Block) :=
  (SourceBlock.buildAll table 0 ss).map Block.group

namespace Post

/-- The block markup of some source blocks. -/
def sourceMarkup (table : TagTable) (ss : List SourceBlock) : Except ConvertError String := do
  let bs ← Block.ofSource table ss
  (Block.documentMarkup bs).mapError .imbalance

/-- The block markup of a post's text. -/
def markup (table : TagTable) (source : String) : Except ConvertError String := do
  sourceMarkup table (← decode source)

/-- The block markup of a post's JSON value. -/
def valueMarkup (table : TagTable) (post : Json) : Except ConvertError String := do
  sourceMarkup table (← decodeValue post)

end Post

/-- Why markup could not be written afresh. -/
inductive NormalizeError where
  | markup (e : MarkupError)
  | imbalance (i : Imbalance)
deriving Repr, BEq, Inhabited

/-- Markup read and written again. -/
def Block.normalize (source : String) : Except NormalizeError String := do
  let bs ← (Block.parse source).mapError .markup
  (Block.documentMarkup bs).mapError .imbalance

end PostBlocks
