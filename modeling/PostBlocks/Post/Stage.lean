import PostBlocks.Block.Outline
import PostBlocks.Block.Tree
import PostBlocks.Post.Convert

/-!
# Looking at a conversion

A conversion can be looked at in four views: the source blocks, the spans their ranges resolve
into, the block tree as JSON and the block tree as an outline. Every view starts by decoding the
post, also under a name that is no view.
-/

namespace PostBlocks

/-! ### Source blocks and spans as JSON -/

/-- A formatting range as a JSON object. -/
def FormatRange.toJson (r : FormatRange) : Json :=
  .object [("start", .nat r.start), ("end", .nat r.stop), ("type", .string r.kind)]

/-- A media descriptor as a JSON object, a missing field as null. -/
def Media.toJson (m : Media) : Json :=
  .object
    [("url", m.url.elim .null .string), ("width", m.width.elim .null .nat),
      ("height", m.height.elim .null .nat)]

/-- A styled text as fields of a JSON object. -/
def StyledText.fields (t : StyledText) : Json.Fields :=
  [("text", .string t.text), ("formatting", .array (t.formatting.map FormatRange.toJson))]

/-- What a source block holds, as fields of a JSON object. -/
def SourceBlock.fields : SourceBlock → Json.Fields
  | .paragraph t | .heading1 t | .heading2 t | .quote t | .chat t | .quirky t | .indented t =>
    t.fields
  | .listItem kind t => [("kind", .string kind.name), ("text", .object t.fields)]
  | .image media => [("media", .array (media.map Media.toJson))]
  | .audio media url =>
    [("media", .array (media.map Media.toJson)), ("url", url.elim .null .string)]
  | .fallback kind t => [("kind", .string kind), ("text", .object t.fields)]

/-- A source block as a JSON object. -/
def SourceBlock.toJson (s : SourceBlock) : Json :=
  .object (("variant", .string s.variant) :: s.fields)

/-- A span with the kinds of its formats, as a JSON object. -/
def Span.toJson (s : Span) : Json :=
  .object
    [("start", .nat s.start), ("end", .nat s.stop),
      ("formats", .array (s.formats.map fun r ↦ .string r.kind))]

/-- The spans of a text, under the index of its block. -/
def StyledText.spansJson (index : Nat) (t : StyledText) : Json :=
  .object
    [("index", .nat index), ("text", .string t.text),
      ("spans", .array ((Span.resolve t.text.length t.formatting).map Span.toJson))]

/-- The spans of the source blocks that carry text. -/
def SourceBlock.spansJson (ss : List SourceBlock) : Json :=
  .array (ss.zipIdx.filterMap fun (s, index) ↦ s.styledText?.map (StyledText.spansJson index))

/-! ### Views -/

/-- A view of a conversion. -/
inductive Stage where
  | source
  | spans
  | tree
  | outline
deriving DecidableEq, Repr, Inhabited

namespace Stage

/-- All views, in the order they are listed in. -/
def all : List Stage :=
  [source, spans, tree, outline]

/-- The name of a view. -/
def name : Stage → String
  | source => "source-json"
  | spans => "spans-json"
  | tree => "tree-json"
  | outline => "tree-treeviz"

/-- The view of a name. -/
def ofName? (name : String) : Option Stage :=
  all.find? (·.name == name)

/-- A view of some source blocks. -/
def view (table : TagTable) (ss : List SourceBlock) : Stage → Except ConvertError String
  | source => .ok (Json.array (ss.map SourceBlock.toJson)).pretty
  | spans => .ok (SourceBlock.spansJson ss).pretty
  | tree => (Block.ofSource table ss).map Block.writeTree
  | outline => (Block.ofSource table ss).map Block.documentOutline

end Stage

/-- Why a post cannot be viewed. -/
inductive InspectError where
  | decoding (e : ConvertError)
  | unknownStage (name : String)
  | conversion (e : ConvertError)
deriving Repr, BEq, Inhabited

/-- The wording of an error. -/
def InspectError.message : InspectError → String
  | decoding e => "Decoding failed: " ++ e.message?.getD "malformed input"
  | unknownStage name =>
    s!"Unknown transform: {name}. Available: " ++ ", ".intercalate (Stage.all.map Stage.name)
  | conversion e => "Conversion failed: " ++ e.message?.getD "malformed input"

/-- The view with the given name of a post's text. -/
def Post.inspect (table : TagTable) (stage : String) (source : String) :
    Except InspectError String := do
  let ss ← (decode source).mapError .decoding
  match Stage.ofName? stage with
  | none => .error (.unknownStage stage)
  | some stage => (stage.view table ss).mapError .conversion

end PostBlocks
