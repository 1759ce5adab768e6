import PostBlocks.Json.Node
import PostBlocks.Post.Error
import PostBlocks.Post.Source

/-!
# Decoding posts

A post is read in two steps. First every content block is read into the fields it may have, whatever
its type: a field of the wrong type anywhere spoils the post. Then each block is sorted into its
variant (`RawBlock.classify`); here only a text block without text is refused.

`Post.decode` reads a text and `Post.decodeValue` a JSON value. Both read a tree of nodes: that of
the text, in which unknown keys are skipped unread, and that of the value.
-/

namespace PostBlocks

open Json (Node)

/-- The fields of a content block, all of which may be missing. -/
structure RawBlock where
  kind : Option String
  subtype : Option String
  text : Option String
  content : Option Json
  formatting : Option (List FormatRange)
  media : Option (List Media)
  url : Option String
deriving Repr, BEq, Inhabited

/-! ### Fields -/

/-- A formatting range; all three fields have to be there. -/
def FormatRange.ofNode? (v : Node) : Option FormatRange := do
  match ← v.fields? ["start", "end", "type"] with
  | [start, stop, kind] =>
    return ⟨← Node.required? Node.unsigned? start, ← Node.required? Node.unsigned? stop,
      ← Node.required? Node.string? kind⟩
  | _ => none

/-- A media descriptor; each field may be missing. -/
def Media.ofNode? (v : Node) : Option Media := do
  match ← v.fields? ["url", "width", "height"] with
  | [url, width, height] =>
    return ⟨← Node.optional? Node.string? url, ← Node.optional? Node.unsigned? width,
      ← Node.optional? Node.unsigned? height⟩
  | _ => none

/-- The descriptors of a block: an array of them, or one alone. Unlike elsewhere, nothing in them
may lack a value, skipped or not. -/
def Media.listOfNode? (v : Node) : Option (List Media) :=
  if v.isUsable then (v.listOf? Media.ofNode?).or ((Media.ofNode? v).map ([·])) else none

/-- The fields of a content block. -/
def RawBlock.ofNode? (v : Node) : Option RawBlock := do
  match ← v.fields? ["type", "subtype", "text", "content", "formatting", "media", "url"] with
  | [kind, subtype, text, content, formatting, media, url] =>
    return ⟨← Node.optional? Node.string? kind, ← Node.optional? Node.string? subtype,
      ← Node.optional? Node.string? text, ← Node.optional? Node.value? content,
      ← Node.optional? (Node.listOf? FormatRange.ofNode?) formatting,
      ← Node.optional? Media.listOfNode? media, ← Node.optional? Node.string? url⟩
  | _ => none

/-! ### Variants -/

/-- The variant of a text block with the given subtype. -/
def SourceBlock.ofSubtype (subtype : Option String) (text : StyledText) : SourceBlock :=
  match subtype with
  | some "heading1" => .heading1 text
  | some "heading2" => .heading2 text
  | some "quote" => .quote text
  | some "chat" => .chat text
  | some "quirky" => .quirky text
  | some "indented" => .indented text
  | some "unordered-list-item" => .listItem .unordered text
  | some "ordered-list-item" => .listItem .ordered text
  | _ => .paragraph text

/-- The variant of the content block at `index`. -/
def RawBlock.classify (index : Nat) (b : RawBlock) : Except ConvertError SourceBlock :=
  let formatting := b.formatting.getD []
  match b.kind.getD "" with
  | "text" =>
    match b.text with
    | none => .error (.missing index .text)
    | some text => .ok (.ofSubtype b.subtype ⟨text, formatting⟩)
  | "image" => .ok (.image (b.media.getD []))
  | "audio" => .ok (.audio (b.media.getD []) b.url)
  | kind =>
    let text := ((b.content.bind Json.string?).or b.text).getD ""
    .ok (.fallback kind ⟨text, formatting⟩)

/-- The variants of the content blocks from `index` on, up to the first that has none. -/
def RawBlock.classifyAll (index : Nat) : List RawBlock → Except ConvertError (List SourceBlock)
  | [] => .ok []
  | b :: bs => do
    let source ← b.classify index
    return source :: (← classifyAll (index + 1) bs)

/-! ### Posts -/

namespace Post

/-- The content blocks of a post. -/
def rawBlocks? (v : Node) : Option (List RawBlock) := do
  match ← v.fields? ["content"] with
  | [content] => Node.required? (Node.listOf? RawBlock.ofNode?) content
  | _ => none

/-- The source blocks of a post's tree; `none` stands for a text that has no tree. -/
def decodeNode (v : Option Node) : Except ConvertError (List SourceBlock) :=
  match v.bind rawBlocks? with
  | none => .error (.malformed .unreadable)
  | some bs => RawBlock.classifyAll 0 bs

/-- The source blocks of a post's text. -/
def decode (source : String) : Except ConvertError (List SourceBlock) :=
  decodeNode (Node.parse? source)

/-- The source blocks of a post's JSON value. -/
def decodeValue (post : Json) : Except ConvertError (List SourceBlock) :=
  decodeNode post.toNode

end Post

end PostBlocks
