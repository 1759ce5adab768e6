import Mathlib.Algebra.Group.Int.Defs
import PostBlocks.Proofs.Except
import PostBlocks.Record.Basic

/-!
# Records and the fields they come from

A record is built in steps that can fail: its content, the position of a page, the date. The record
of an object is those steps in that order (`PostRecord.ofJson_object`, `PageRecord.ofJson_object`),
so where there is a record each of its parts is told by a field (`PostRecord.isOf_of_ofJson`,
`PageRecord.isOf_of_ofJson`).

`IsOf` names the field behind each part. A result about one part of a record, its date or its slug,
uses that part alone and does not look at how records are built. It goes one way only: nothing is
said here of which objects have a record. Values that are not objects have none.

Two readers of fields stand in front. A field of another kind is read as a string like one that is
absent (`Json.bind_string?_eq_some_iff`), so a post whose body is a number falls back on its
content; and a double is never read as an integer, even where it stands for one
(`Json.signed?_eq_some_iff`).
-/

namespace PostBlocks

/-! ### Fields -/

/-- A field that is read as a string is there and is one; absent fields and fields of other kinds
are read alike. -/
theorem Json.bind_string?_eq_some_iff {v : Option Json} {s : String} :
    v.bind Json.string? = some s ↔ v = some (.string s) := by
  rcases v with _ | v
  · simp
  · cases v <;> simp [Json.string?]

/-- What is read as a signed number is an integer of a 64-bit word. A double never is, even one that
stands for an integer. -/
theorem Json.signed?_eq_some_iff {v : Json} {i : Int} :
    v.signed? = some i ↔ v = .number (.int i) ∧ -2 ^ 63 ≤ i ∧ i < 2 ^ 63 := by
  unfold Json.signed? Json.Number.signed?
  split
  · split
    · next j =>
      rw [Option.ite_none_right_eq_some, Option.some.injEq, Json.number.injEq,
        Json.Number.int.injEq]
      constructor
      · rintro ⟨hword, rfl⟩
        exact ⟨rfl, hword⟩
      · rintro ⟨rfl, hword⟩
        exact ⟨hword, rfl⟩
    · simp
  · next hnumber => exact ⟨nofun, fun h ↦ absurd h.1 (hnumber _)⟩

variable {defaults : RecordDefaults} {table : TagTable}

/-! ### Posts -/

/-- The content of a post: its body if that is a string. -/
def Record.postContent (table : TagTable) (post : Json) : Except ConvertError String :=
  match (post.get? "body").bind Json.string? with
  | some body => .ok body
  | none => content table post

namespace PostRecord

/-- A record is that of a post. -/
structure IsOf (defaults : RecordDefaults) (table : TagTable) (post : Json) (record : PostRecord) :
    Prop where
  title : record.title = Record.title post
  content : Record.postContent table post = .ok record.content
  date : Record.date? (post.get? "timestamp") = .ok record.date
  status : record.status = defaults.status
  author : record.author = defaults.author
  sticky : record.sticky = Record.isSet post "is_pinned"

/-- The steps behind the record of a post, in the order in which they can fail. The body comes
first, so the content of a post with a body is never converted. -/
theorem ofJson_object (fields : Json.Fields) :
    ofJson defaults table (.object fields)
      = Record.postContent table (.object fields) >>= fun content ↦
        Record.date? (Json.get? "timestamp" (.object fields)) >>= fun date ↦
        .ok ⟨Record.title (.object fields), content, date, defaults.status, defaults.author,
          Record.isSet (.object fields) "is_pinned"⟩ := by
  unfold ofJson Record.postContent
  cases (Json.get? "body" (.object fields)).bind Json.string? <;> rfl

/-- Where a post has a record, each part of it is told by a field of the post. -/
theorem isOf_of_ofJson {post : Json} {record : PostRecord}
    (h : ofJson defaults table post = .ok record) : IsOf defaults table post record := by
  cases post with
  | object fields =>
    rw [ofJson_object] at h
    obtain ⟨content, hcontent, h⟩ := Except.bind_eq_ok_iff.1 h
    obtain ⟨date, hdate, h⟩ := Except.bind_eq_ok_iff.1 h
    cases h
    exact ⟨rfl, hcontent, hdate, rfl, rfl, rfl⟩
  | _ => cases h

end PostRecord

/-! ### Pages -/

namespace PageRecord

/-- A record is that of a page. -/
structure IsOf (defaults : RecordDefaults) (table : TagTable) (page : Json) (record : PageRecord) :
    Prop where
  title : record.title = Record.title page
  content : Record.content table page = .ok record.content
  status : record.status = if Record.isSet page "show_link" then "publish" else "draft"
  author : record.author = defaults.author
  menuOrder : Record.position (page.get? "position") = .ok record.menuOrder
  date : Record.date? (page.get? "updated_at") = .ok record.date
  modified : record.modified = record.date
  slug : record.slug
    = (((page.get? "path").bind Json.string?).map Slug.ofPath).filter (· ≠ "")

/-- The steps behind the record of a page, in the order in which they can fail: its content, its
position, its date. -/
theorem ofJson_object (fields : Json.Fields) :
    ofJson defaults table (.object fields)
      = Record.content table (.object fields) >>= fun content ↦
        Record.position (Json.get? "position" (.object fields)) >>= fun menuOrder ↦
        Record.date? (Json.get? "updated_at" (.object fields)) >>= fun date ↦
        .ok ⟨Record.title (.object fields), content,
          if Record.isSet (.object fields) "show_link" then "publish" else "draft",
          defaults.author, menuOrder, date, date,
          (((Json.get? "path" (.object fields)).bind Json.string?).map Slug.ofPath).filter
            (· ≠ "")⟩ :=
  rfl

/-- Where a page has a record, each part of it is told by a field of the page, and the two dates by
the same one. -/
theorem isOf_of_ofJson {page : Json} {record : PageRecord}
    (h : ofJson defaults table page = .ok record) : IsOf defaults table page record := by
  cases page with
  | object fields =>
    rw [ofJson_object] at h
    obtain ⟨content, hcontent, h⟩ := Except.bind_eq_ok_iff.1 h
    obtain ⟨menuOrder, hposition, h⟩ := Except.bind_eq_ok_iff.1 h
    obtain ⟨date, hdate, h⟩ := Except.bind_eq_ok_iff.1 h
    cases h
    exact ⟨rfl, hcontent, rfl, rfl, hposition, hdate, rfl, rfl⟩
  | _ => cases h

end PageRecord

end PostBlocks
