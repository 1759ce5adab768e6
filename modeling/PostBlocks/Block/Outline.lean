import PostBlocks.Block.Basic
import PostBlocks.Block.Name
import PostBlocks.Html.Preview
import PostBlocks.Json.Printer

/-!
# Outlines of block trees

An outline draws a document: a header, then one line a block in document order, with connectors
that show where the block hangs. A line names the block with its icon, its attributes if it has
any, and a preview of its own markup if that shows text.
-/

namespace PostBlocks.Block

/-- The icon of a block, by its name with or without the namespace `core`. -/
def icon (name : String) : String :=
  match BlockName.short name with
  | "Document" => "⧉"
  | "paragraph" => "¶"
  | "heading" => "§"
  | "quote" => "\""
  | "pullquote" => "❝"
  | "list" => "☰"
  | "list-item" => "•"
  | "image" => "▣"
  | "audio" => "♫"
  | "separator" => "⎯"
  | _ => "○"

/-- What a block's line says after the icon. -/
def label (name : String) (attrs : Json.Fields) (html : String) : List Char :=
  let attributes := if attrs.isEmpty then [] else ' ' :: (Json.object attrs).compactChars
  let shown := match Html.preview html.toList with
    | [] => []
    | text => ':' :: ' ' :: text
  (BlockName.short name).toList ++ attributes ++ shown

/-- The sign in front of a block: the last of its siblings ends their line. -/
def connector (isLast : Bool) : List Char :=
  if isLast then "└─".toList else "├─".toList

/-- What stands under a connector, in the lines of the blocks inside. -/
def cell (isLast : Bool) : List Char :=
  if isLast then "  ".toList else "│ ".toList

mutual

/-- The lines of a block and of everything inside it, after the given indentation. -/
def outline (indent : List Char) (isLast : Bool) : Block → List (List Char)
  | ⟨name, attrs, children, html, _⟩ =>
    (indent ++ connector isLast ++ ' ' :: (icon name).toList ++ ' ' :: label name attrs html)
      :: outlineEach (indent ++ cell isLast) children

/-- The lines of sibling blocks. -/
def outlineEach (indent : List Char) : List Block → List (List Char)
  | [] => []
  | b :: bs => outline indent bs.isEmpty b ++ outlineEach indent bs

end

/-- The first line of an outline. -/
def outlineHeader (bs : List Block) : List Char :=
  (icon "Document").toList ++ " Document (".toList ++ Json.decimalChars bs.length
    ++ " blocks)".toList

/-- The lines of a document's outline. -/
def outlineLines (bs : List Block) : List (List Char) :=
  outlineHeader bs :: outlineEach [] bs

/-- The outline of a document, each line ended by a line feed. -/
def documentOutline (bs : List Block) : String :=
  .ofList ((outlineLines bs).flatMap (· ++ ['\n']))

end PostBlocks.Block
