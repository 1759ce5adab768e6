import PostBlocks.Proofs.Calendar.Count
import PostBlocks.Proofs.Calendar.Written
import PostBlocks.Proofs.Record.Fields

/-!
# Dates of records

The date of a record denotes the instant of its timestamp and nothing else (`IsDated`): read back,
it is a date of the calendar that is as many seconds from the start of 1970 as the timestamp says.
So a date tells its timestamp (`IsDated.inj`). A timestamp that is not there gives no date; one that
is no instant with a date is an error, and then there is no record.

A post and a page take their dates from one function (`isDated_date?`), so what has to be shown of
each is that the rest of the record does not get in the way.
-/

namespace PostBlocks.Record

/-- The instants that have a date: the years from -262143 to 262142. -/
def HasDate (seconds : Int) : Prop :=
  DateTime.sinceEpoch ⟨-262143, 1, 1, 0, 0, 0⟩ ≤ seconds ∧
    seconds ≤ DateTime.sinceEpoch ⟨262142, 12, 31, 23, 59, 59⟩

/-- What becomes of a timestamp. -/
inductive IsDated : Option Json → Except ConvertError (Option String) → Prop
  | absent : IsDated none (.ok none)
  | null : IsDated (some .null) (.ok none)
  /-- The text reads as a date that counts the seconds of the timestamp. -/
  | date {seconds : Int} {d : DateTime} {text : String} (hrange : HasDate seconds)
    (hread : DateTime.ofChars? text.toList = some d) (hvalid : d.IsValid)
    (hseconds : d.sinceEpoch = seconds) : IsDated (some (.number (.int seconds))) (.ok (some text))
  | outOfRange {seconds : Int} (hword : -2 ^ 63 ≤ seconds ∧ seconds < 2 ^ 63)
    (hrange : ¬HasDate seconds) :
    IsDated (some (.number (.int seconds))) (.error (.malformed (.timestampOutOfRange seconds)))
  /-- Neither null nor an integer of a signed 64-bit word. -/
  | notInteger {v : Json} (hnull : v ≠ .null)
    (hword : ∀ i, v = .number (.int i) → i < -2 ^ 63 ∨ 2 ^ 63 ≤ i) :
    IsDated (some v) (.error (.malformed (.timestampNotInteger v)))

/-- Different timestamps have different dates. -/
theorem IsDated.inj {timestamp timestamp' : Option Json} {text : String}
    (h : IsDated timestamp (.ok (some text))) (h' : IsDated timestamp' (.ok (some text))) :
    timestamp = timestamp' := by
  cases h with
  | date _ hread _ hseconds =>
    cases h' with
    | date _ hread' _ hseconds' =>
      obtain rfl := Option.some.inj (hread.symm.trans hread')
      rw [← hseconds, hseconds']

/-! ### The date of a timestamp -/

theorem hasDate_iff {seconds : Int} :
    HasDate seconds ↔ DateTime.bounds.1 ≤ seconds ∧ seconds ≤ DateTime.bounds.2 := by
  rw [DateTime.bounds_eq, HasDate]

/-- Timestamps of every kind, the missing one among them, become what `IsDated` says. -/
theorem isDated_date? (timestamp : Option Json) : IsDated timestamp (date? timestamp) := by
  unfold date?
  split
  case h_1 => exact .absent
  case h_2 => exact .null
  case h_3 v hnull =>
    split
    case h_1 hsigned =>
      refine .notInteger (fun hv ↦ hnull (hv ▸ rfl)) fun i hv ↦ ?_
      have hword : ¬(-2 ^ 63 ≤ i ∧ i < 2 ^ 63) := fun h ↦ by
        rw [Json.signed?_eq_some_iff.2 ⟨hv, h⟩] at hsigned
        cases hsigned
      omega
    case h_2 seconds hsigned =>
      obtain ⟨rfl, hword⟩ := Json.signed?_eq_some_iff.1 hsigned
      by_cases hrange : HasDate seconds
      · have hdate : DateTime.ofSeconds? seconds = some (DateTime.ofSeconds seconds) :=
          if_pos (hasDate_iff.1 hrange)
        have hvalid := DateTime.isValid_ofSeconds seconds
        rw [hdate]
        refine .date hrange ?_ hvalid (DateTime.sinceEpoch_ofSeconds seconds)
        rw [DateTime.text, String.toList_ofList]
        exact DateTime.ofChars?_chars hvalid
      · have hnone : DateTime.ofSeconds? seconds = none := if_neg (mt hasDate_iff.2 hrange)
        rw [hnone]
        exact .outOfRange hword hrange

/-! ### Records -/

/-- The fields of a post other than its timestamp convert. -/
def PostConverts (table : TagTable) (post : Json) : Prop :=
  (∃ fields, post = .object fields) ∧ ∃ markup, postContent table post = .ok markup

/-- The fields of a page other than its timestamp convert. -/
def PageConverts (table : TagTable) (page : Json) : Prop :=
  (∃ fields, page = .object fields) ∧ (∃ markup, content table page = .ok markup) ∧
    ∃ i, position (page.get? "position") = .ok i

/-- A timestamp of a post or a page whose record has a date. -/
inductive StoresDate (timestamp : Option Json) (text : String) : Prop
  | post {defaults : RecordDefaults} {table : TagTable} {post : Json} {record : PostRecord}
    (htimestamp : post.get? "timestamp" = timestamp)
    (hrecord : PostRecord.ofJson defaults table post = .ok record)
    (hdate : record.date = some text)
  | page {defaults : RecordDefaults} {table : TagTable} {page : Json} {record : PageRecord}
    (htimestamp : page.get? "updated_at" = timestamp)
    (hrecord : PageRecord.ofJson defaults table page = .ok record)
    (hdate : record.date = some text)

section

variable {defaults : RecordDefaults} {table : TagTable}

/-- A post whose other fields convert has the date of its timestamp, or fails as that does. -/
theorem map_date_ofJson_post {post : Json} (h : PostConverts table post) :
    (PostRecord.ofJson defaults table post).map PostRecord.date
      = date? (post.get? "timestamp") := by
  obtain ⟨⟨fields, rfl⟩, ⟨markup, hcontent⟩⟩ := h
  rw [PostRecord.ofJson_object, hcontent]
  cases date? (Json.get? "timestamp" (.object fields)) <;> rfl

theorem map_date_ofJson_page {page : Json} (h : PageConverts table page) :
    (PageRecord.ofJson defaults table page).map PageRecord.date
      = date? (page.get? "updated_at") := by
  obtain ⟨⟨fields, rfl⟩, ⟨markup, hcontent⟩, ⟨i, hposition⟩⟩ := h
  rw [PageRecord.ofJson_object, hcontent, hposition]
  cases date? (Json.get? "updated_at" (.object fields)) <;> rfl

end

/-- Where a record has a date, the fields behind it did convert, so the date is that of the
timestamp. -/
theorem StoresDate.isDated {timestamp : Option Json} {text : String}
    (h : StoresDate timestamp text) : IsDated timestamp (.ok (some text)) := by
  cases h with
  | post htimestamp hrecord hdate =>
    rw [← hdate, ← (PostRecord.isOf_of_ofJson hrecord).date, htimestamp]
    exact isDated_date? timestamp
  | page htimestamp hrecord hdate =>
    rw [← hdate, ← (PageRecord.isOf_of_ofJson hrecord).date, htimestamp]
    exact isDated_date? timestamp

/-- The date of a record denotes its timestamp, for posts and for pages, whose two dates coincide;
and no two timestamps share a date. -/
theorem isDated_ofJson (defaults : RecordDefaults) (table : TagTable) :
    (∀ post, PostConverts table post →
      IsDated (post.get? "timestamp")
        ((PostRecord.ofJson defaults table post).map PostRecord.date)) ∧
    (∀ page, PageConverts table page →
      IsDated (page.get? "updated_at")
        ((PageRecord.ofJson defaults table page).map PageRecord.date)) ∧
    (∀ page record, PageRecord.ofJson defaults table page = .ok record →
      record.modified = record.date) ∧
    ∀ timestamp timestamp' text, StoresDate timestamp text → StoresDate timestamp' text →
      timestamp = timestamp' := by
  refine ⟨fun post h ↦ ?post, fun page h ↦ ?page,
    fun page record h ↦ (PageRecord.isOf_of_ofJson h).modified,
    fun _ _ _ h h' ↦ h.isDated.inj h'.isDated⟩
  case post =>
    rw [map_date_ofJson_post h]
    exact isDated_date? _
  case page =>
    rw [map_date_ofJson_page h]
    exact isDated_date? _

/-- A second before the start of 1970. -/
theorem isDated_ofJson_negative :
    let post := Json.object [("body", .string "b"), ("timestamp", .number (.int (-1)))]
    let page := Json.object [("updated_at", .number (.int (-1)))]
    let date := "1969-12-31 23:59:59"
    let record : PageRecord := ⟨"", "", "draft", 1, 0, some date, some date, none⟩
    (PostConverts default post ∧ IsDated (post.get? "timestamp")
      ((PostRecord.ofJson default default post).map PostRecord.date)) ∧
    (PageConverts default page ∧ IsDated (page.get? "updated_at")
      ((PageRecord.ofJson default default page).map PageRecord.date)) ∧
    (PageRecord.ofJson default default page = .ok record ∧ record.modified = record.date) ∧
    StoresDate (post.get? "timestamp") date ∧ StoresDate (page.get? "updated_at") date ∧
    post.get? "timestamp" = page.get? "updated_at" := by
  intro post page date record
  have htext : (DateTime.ofSeconds (-1)).text = date := by decide +kernel
  have hpost : PostConverts default post := ⟨⟨_, rfl⟩, ⟨_, rfl⟩⟩
  have hpage : PageConverts default page := ⟨⟨_, rfl⟩, ⟨_, rfl⟩, ⟨_, rfl⟩⟩
  have hpostRecord : PostRecord.ofJson default default post
      = .ok ⟨"", "b", some date, "publish", 1, false⟩ := by
    rw [← htext]
    rfl
  have hpageRecord : PageRecord.ofJson default default page = .ok record := by
    unfold record
    rw [← htext]
    rfl
  obtain ⟨hposts, hpages, hmodified, hinj⟩ := isDated_ofJson default default
  have hstoresPost : StoresDate (post.get? "timestamp") date := .post rfl hpostRecord rfl
  have hstoresPage : StoresDate (page.get? "updated_at") date := .page rfl hpageRecord rfl
  exact ⟨⟨hpost, hposts post hpost⟩, ⟨hpage, hpages page hpage⟩,
    ⟨hpageRecord, hmodified page record hpageRecord⟩, hstoresPost, hstoresPage,
    hinj _ _ _ hstoresPost hstoresPage⟩

end PostBlocks.Record
