import PostBlocks.Calendar.DateTime
import PostBlocks.Post.Convert
import PostBlocks.Record.Slug

/-!
# Records

A record is what a post or a page is stored as: its title, its content as markup, its dates and the
rest of the fields of a content table. The content of a post is its `body` if that is a string, else
its `content`: converted when it is an array of content blocks, verbatim when it is a string. The
status and the author come from defaults; a page is published exactly when it is linked.
-/

namespace PostBlocks

/-- What every record of an import shares. -/
structure RecordDefaults where
  status : String
  author : Nat
deriving DecidableEq, Repr

/-- Without settings, posts are published under the first author. -/
instance : Inhabited RecordDefaults :=
  ⟨⟨"publish", 1⟩⟩

/-- The record of a post. -/
structure PostRecord where
  title : String
  content : String
  date : Option String
  status : String
  author : Nat
  sticky : Bool
deriving DecidableEq, Repr, Inhabited

/-- The record of a page; both dates are those of its last change. -/
structure PageRecord where
  title : String
  content : String
  status : String
  author : Nat
  menuOrder : Int
  date : Option String
  modified : Option String
  slug : Option String
deriving DecidableEq, Repr, Inhabited

namespace Record

/-- The date of a timestamp field; missing and null give none. -/
def date? (timestamp : Option Json) : Except ConvertError (Option String) :=
  match timestamp with
  | none | some .null => .ok none
  | some v =>
    match v.signed? with
    | none => .error (.malformed (.timestampNotInteger v))
    | some seconds =>
      match DateTime.ofSeconds? seconds with
      | none => .error (.malformed (.timestampOutOfRange seconds))
      | some d => .ok (some d.text)

/-- The position field of a page; missing and null are the first. -/
def position (value : Option Json) : Except ConvertError Int :=
  match value with
  | none | some .null => .ok 0
  | some v =>
    match v.signed? with
    | none => .error (.malformed (.positionNotInteger v))
    | some i => .ok i

/-- The content field of a post or page: an array is converted, a string is taken as it is. -/
def content (table : TagTable) (entry : Json) : Except ConvertError String :=
  match entry.get? "content" with
  | some (.array _) => Post.valueMarkup table entry
  | some (.string content) => .ok content
  | _ => .ok ""

/-- The title field. -/
def title (entry : Json) : String :=
  ((entry.get? "title").bind Json.string?).getD ""

/-- A field that counts only when it is true. -/
def isSet (entry : Json) (key : String) : Bool :=
  ((entry.get? key).bind Json.bool?).getD false

end Record

/-- The record of a post. -/
def PostRecord.ofJson (defaults : RecordDefaults) (table : TagTable) (post : Json) :
    Except ConvertError PostRecord :=
  match post with
  | .object _ => do
    let content ← match (post.get? "body").bind Json.string? with
      | some body => .ok body
      | none => Record.content table post
    let date ← Record.date? (post.get? "timestamp")
    return {
      title := Record.title post
      content, date
      status := defaults.status
      author := defaults.author
      sticky := Record.isSet post "is_pinned" }
  | _ => .error (.malformed .postNotObject)

/-- The record of a page. -/
def PageRecord.ofJson (defaults : RecordDefaults) (table : TagTable) (page : Json) :
    Except ConvertError PageRecord :=
  match page with
  | .object _ => do
    let content ← Record.content table page
    let menuOrder ← Record.position (page.get? "position")
    let date ← Record.date? (page.get? "updated_at")
    let slug := ((page.get? "path").bind Json.string?).map Slug.ofPath
    return {
      title := Record.title page
      content, menuOrder, date
      status := if Record.isSet page "show_link" then "publish" else "draft"
      author := defaults.author
      modified := date
      slug := slug.filter (· ≠ "") }
  | _ => .error (.malformed .pageNotObject)

/-! ### Records as JSON -/

/-- A post's record as a JSON object. -/
def PostRecord.toJson (r : PostRecord) : Json :=
  .object
    [("title", .string r.title), ("content", .string r.content),
      ("date", r.date.elim .null .string), ("status", .string r.status),
      ("author", .nat r.author), ("sticky", .bool r.sticky)]

/-- A page's record as a JSON object. -/
def PageRecord.toJson (r : PageRecord) : Json :=
  .object
    [("title", .string r.title), ("content", .string r.content), ("status", .string r.status),
      ("author", .nat r.author), ("menu_order", .int r.menuOrder),
      ("date", r.date.elim .null .string), ("modified", r.modified.elim .null .string),
      ("slug", r.slug.elim .null .string)]

end PostBlocks
