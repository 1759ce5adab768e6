import PostBlocks.Block.Basic

/-!
# Grouping list items

The builders produce blocks one at a time, list items among them. A `Listing` takes them in document
order and puts each run of items of one kind into a list block: a block that is no item, an item of
the other kind and the end of the document close the open list.
-/

namespace PostBlocks

/-- The two kinds of list. -/
inductive ListKind where
  | unordered
  | ordered
deriving DecidableEq, Repr, Inhabited

/-- The name of a kind of list. -/
def ListKind.name : ListKind → String
  | unordered => "unordered"
  | ordered => "ordered"

/-- A block as it is built: one that stands by itself, or an item that joins a list. -/
inductive Built where
  | block (b : Block)
  | item (kind : ListKind) (b : Block)
deriving Repr, BEq, Inhabited

/-- The list block around some items. -/
def Block.list : ListKind → List Block → Block
  | .unordered, items => .container "core/list" [] "<ul class=\"wp-block-list\">" items "</ul>"
  | .ordered, items =>
    .container "core/list" [("ordered", .bool true)] "<ol class=\"wp-block-list\">" items "</ol>"

/-- The document so far, and the list that is still open, with its items in order. -/
structure Listing where
  blocks : List Block
  current : Option (ListKind × List Block)
deriving Repr, BEq, Inhabited

namespace Listing

/-- Nothing yet. -/
def empty : Listing :=
  ⟨[], none⟩

/-- The document with the open list closed. -/
def finish (l : Listing) : List Block :=
  match l.current with
  | none => l.blocks
  | some (kind, items) => l.blocks ++ [.list kind items]

/-- One more block or item. -/
def push (l : Listing) : Built → Listing
  | .block b => ⟨l.finish ++ [b], none⟩
  | .item kind b =>
    match l.current with
    | some (openKind, items) =>
      if openKind = kind then { l with current := some (kind, items ++ [b]) }
      else ⟨l.finish, some (kind, [b])⟩
    | none => ⟨l.blocks, some (kind, [b])⟩

end Listing

/-- The document of a sequence of blocks and items. -/
def Block.group (bs : List Built) : List Block :=
  (bs.foldl Listing.push .empty).finish

end PostBlocks
