import PostBlocks.Block.Outline
import PostBlocks.Block.Tree
import PostBlocks.Post.Convert

/-!
# Formats

A document can be read from a post, from block markup and from a JSON tree, and written as block
markup, as a JSON tree, as HTML and as an outline. A format that cannot go one way says so.
-/

namespace PostBlocks

/-- A format; posts are read with a tag table. -/
inductive Format where
  | npf (table : TagTable)
  | blocks
  | json
  | html
  | treeviz

/-- The two things a format can be asked for. -/
inductive FormatUse where
  | parsing
  | serialization
deriving DecidableEq, Repr, Inhabited

/-- The name of a use. -/
def FormatUse.name : FormatUse → String
  | parsing => "parsing"
  | serialization => "serialization"

/-- Why a document cannot be read or written. -/
inductive FormatError where
  | notFound (name : String)
  | notSupported (name : String) (use : FormatUse)
  | markup (e : MarkupError)
  | tree (e : TreeError)
  | conversion (e : ConvertError)
deriving Repr, BEq, Inhabited

/-- The wording of an error, where the converter has one. -/
def FormatError.message? : FormatError → Option String
  | notFound name => s!"Format '{name}' not found"
  | notSupported name use =>
    s!"Operation not supported: Format '{name}' does not support {use.name}"
  | markup e => "Parse error: " ++ e.message
  | tree e => e.message?.map ("Parse error: " ++ ·)
  | conversion e => e.message?

namespace Format

/-- The name a format is asked for by. -/
def name : Format → String
  | npf _ => "npf"
  | blocks => "blocks"
  | json => "json"
  | html => "html"
  | treeviz => "treeviz"

/-- What a format is. -/
def description : Format → String
  | npf _ => "Tumblr Neue Post Format (post JSON with a content array)"
  | blocks => "Block grammar markup (comment-delimited blocks with JSON attributes)"
  | json => "Block tree as JSON (parsed-block shape)"
  | html => "Rendered HTML fragment without block delimiters"
  | treeviz => "Visual tree representation with indentation and Unicode icons"

/-- The extensions of files in a format. -/
def extensions : Format → List String
  | npf _ => ["npf", "json"]
  | blocks => ["blocks"]
  | json => []
  | html => ["html", "htm"]
  | treeviz => ["tree", "treeviz"]

/-- A format can be used in a way. -/
def supports : Format → FormatUse → Bool
  | npf _, .parsing | blocks, .parsing | json, .parsing => true
  | html, .parsing | treeviz, .parsing => false
  | npf _, .serialization => false
  | _, .serialization => true

/-- The document in a text. -/
def parse (f : Format) (source : String) : Except FormatError (List Block) :=
  match f with
  | npf table => do
    let ss ← (Post.decode source).mapError .conversion
    (Block.ofSource table ss).mapError .conversion
  | blocks => (Block.parse source).mapError .markup
  | json => (Block.readTree source).mapError .tree
  | html | treeviz => .error (.notSupported f.name .parsing)

/-- A document as a text. -/
def serialize (f : Format) (bs : List Block) : Except FormatError String :=
  match f with
  | npf _ => .error (.notSupported f.name .serialization)
  | blocks => (Block.documentMarkup bs).mapError (.conversion ∘ .imbalance)
  | json => .ok (Block.writeTree bs)
  | html => (Block.documentHtml bs).mapError (.conversion ∘ .imbalance)
  | treeviz => .ok (Block.documentOutline bs)

end Format

end PostBlocks
