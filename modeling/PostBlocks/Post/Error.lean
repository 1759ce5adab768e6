import PostBlocks.Block.Markup
import PostBlocks.Json.Printer

/-!
# What can go wrong with a post

A conversion fails because its input is malformed, because a content block lacks a field it needs,
or because a block tree is not balanced. Errors are causes; `message` is their wording.
-/

namespace PostBlocks

/-- Why an input is malformed. -/
inductive Malformed where
  /-- No JSON, or JSON of the wrong shape. -/
  | unreadable
  | postNotObject
  | pageNotObject
  | positionNotInteger (value : Json)
  | timestampNotInteger (value : Json)
  | timestampOutOfRange (seconds : Int)
  | noPosts
  | noPages
deriving Repr, BEq, Inhabited

/-- The wording of a cause, where the converter has one. -/
def Malformed.message? : Malformed → Option String
  | unreadable => none
  | postNotObject => "post is not a JSON object"
  | pageNotObject => "page is not a JSON object"
  | positionNotInteger v => s!"position {v.compact} is not an integer"
  | timestampNotInteger v => s!"timestamp {v.compact} is not an integer"
  | timestampOutOfRange t => s!"timestamp {t} is out of range"
  | noPosts => "expected a `response.posts` array"
  | noPages => "expected a `pages` array"

/-- The fields that a content block can lack. -/
inductive RequiredField where
  | text
  | imageUrl
  | audioUrl
deriving DecidableEq, Repr, Inhabited

namespace RequiredField

/-- The type of the block that needs the field. -/
def block : RequiredField → String
  | text => "text"
  | imageUrl => "image"
  | audioUrl => "audio"

/-- The place of the field in the block. -/
def field : RequiredField → String
  | text => "text"
  | imageUrl | audioUrl => "media.url"

end RequiredField

/-- Why a conversion failed. -/
inductive ConvertError where
  | malformed (cause : Malformed)
  /-- The content block at `index` lacks a field. -/
  | missing (index : Nat) (field : RequiredField)
  | imbalance (i : Imbalance)
deriving Repr, BEq, Inhabited

/-- The wording of an error, where the converter has one. -/
def ConvertError.message? : ConvertError → Option String
  | malformed cause => cause.message?.map ("malformed input: " ++ ·)
  | missing index field => s!"block {index} ({field.block}) is missing `{field.field}`"
  | imbalance i =>
    s!"block '{i.block}' has {i.children} inner blocks but {i.placeholders} placeholders"

end PostBlocks
