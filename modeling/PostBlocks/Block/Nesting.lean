import PostBlocks.Block.Basic
import PostBlocks.Block.Segment

/-!
# Nesting blocks

Reading a cut source keeps the blocks that are still open, innermost first. Literal markup becomes
a fragment of the innermost open block, and outside of all blocks only blank characters may stand.
A void is a block that holds nothing; a closer has to name the innermost open block, which then
becomes a child of the next one, or of the document. Reading stops at the first error; a delimiter
with unreadable attributes is noticed before the literal in front of it.
-/

namespace PostBlocks

/-- What is wrong with a source; offsets count bytes from its start. -/
inductive MarkupError where
  /-- A closer with no open block. -/
  | unopened (name : String) (offset : Nat)
  /-- A closer that does not name the innermost open block. -/
  | mismatched (name : String) (offset : Nat) (innermost : String)
  /-- The source ends inside a block. -/
  | unclosed (name : String)
  /-- Markup outside of all blocks. -/
  | stray (offset : Nat)
  /-- A delimiter whose attributes are no JSON object. -/
  | malformedAttributes (name : String)
deriving DecidableEq, Repr, Inhabited

/-- The wording of an error. -/
def MarkupError.message : MarkupError → String
  | unopened name offset => s!"closer for '{name}' at byte {offset} has no matching opener"
  | mismatched name offset innermost =>
    s!"closer for '{name}' at byte {offset} does not match open block '{innermost}'"
  | unclosed name => s!"block '{name}' is never closed"
  | stray offset => s!"unexpected content outside of any block at byte {offset}"
  | malformedAttributes name => s!"invalid attributes for block '{name}'"

/-- A block whose closer has not come yet, with what it holds so far. -/
structure OpenBlock where
  name : String
  attrs : Json.Fields
  children : List Block
  content : List (Option String)
deriving Repr, BEq, Inhabited

namespace OpenBlock

/-- A block with one more fragment. -/
def pushFragment (b : OpenBlock) (html : List Char) : OpenBlock :=
  { b with content := b.content ++ [some (.ofList html)] }

/-- A block with one more child. -/
def pushChild (b : OpenBlock) (child : Block) : OpenBlock :=
  { b with children := b.children ++ [child], content := b.content ++ [none] }

/-- The markup of a block is its fragments, one after another. -/
def close (b : OpenBlock) : Block :=
  ⟨b.name, b.attrs, b.children, String.join (b.content.filterMap id), b.content⟩

end OpenBlock

/-- The blocks of a source read so far: those still open, innermost first, and the finished ones at
the top level. -/
structure Nesting where
  stack : List OpenBlock
  blocks : List Block
deriving Repr, BEq, Inhabited

namespace Nesting

/-- A finished block goes into the innermost open one, else to the top level. -/
def attach (n : Nesting) (b : Block) : Nesting :=
  match n.stack with
  | [] => { n with blocks := n.blocks ++ [b] }
  | top :: below => { n with stack := top.pushChild b :: below }

/-- Literal markup at an offset. -/
def literal (n : Nesting) (offset : Nat) (html : List Char) : Except MarkupError Nesting :=
  match html, n.stack with
  | [], _ => .ok n
  | _, top :: below => .ok { n with stack := top.pushFragment html :: below }
  | _, [] => if html.all Text.isBlank then .ok n else .error (.stray offset)

/-- A delimiter at an offset. -/
def delimiter (n : Nesting) (offset : Nat) (d : Delimiter) : Except MarkupError Nesting :=
  match d.kind with
  | .opener => .ok { n with stack := ⟨d.name, d.attrs, [], []⟩ :: n.stack }
  | .void => .ok (n.attach (.leaf d.name d.attrs ""))
  | .closer =>
    match n.stack with
    | [] => .error (.unopened d.name offset)
    | top :: below =>
      if top.name = d.name then .ok (attach { n with stack := below } top.close)
      else .error (.mismatched d.name offset top.name)

/-- The blocks of a source that ends here. -/
def finish (n : Nesting) : Except MarkupError (List Block) :=
  match n.stack with
  | [] => .ok n.blocks
  | top :: _ => .error (.unclosed top.name)

/-- Reads what is left of a cut source from an offset. -/
def read (n : Nesting) (offset : Nat) (tail : List Char) :
    List Segment → Except MarkupError (List Block)
  | [] => do (← n.literal offset tail).finish
  | s :: ss =>
    match s.mark with
    | .malformed name => .error (.malformedAttributes name)
    | .delimiter d => do
      let n ← n.literal offset s.literal
      let offset := offset + Text.byteSize s.literal
      let n ← n.delimiter offset d
      n.read (offset + Text.byteSize s.written) tail ss

end Nesting

/-- The blocks of a source, given as characters. -/
def Block.parseChars (source : List Char) : Except MarkupError (List Block) :=
  let cut := Segments.ofChars source
  Nesting.read ⟨[], []⟩ 0 cut.tail cut.segments

/-- The blocks of a source. -/
def Block.parse (source : String) : Except MarkupError (List Block) :=
  parseChars source.toList

end PostBlocks
