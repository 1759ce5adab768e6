import Mathlib.Data.List.Basic
import PostBlocks.Proofs.Html.Elements
import PostBlocks.Proofs.Inline.Partition
import PostBlocks.Proofs.Inline.Render

/-!
# What formatted text means

Read with a stack, the markup of a formatted text is its characters, and around each of them stand
the elements of the kinds of range that cover it (`readElements_renderInline`). That meaning knows
nothing of spans: it goes by the ranges as they are given and by the entries as they are listed
(`TagMapping.tagsAt`).

The entries of a table are the first for each kind (`TagTable.mappings_ofList`); a span of the text
carries a range of some kind where such a range covers any of its characters
(`Span.hasFormat_resolve`); and since spans tile the text, what is read from span to span is read
from character to character (`Span.flatMap_slice_mapIdx`).
-/

namespace PostBlocks

/-- Of some entries in order, the elements around the character at `i`, outermost first: those of
the first entry for each kind of which a range covers the character. -/
def TagMapping.tagsAt (ms : List TagMapping) (ranges : List FormatRange) (i : Nat) : List String :=
  ((ms.eraseDupsBy fun m m' ↦ m.format == m'.format).filter fun m ↦
    ranges.any fun r ↦ r.kind = m.format ∧ r.start ≤ i ∧ i < r.stop).map (·.tag)

namespace TagTable

/-- Each entry joins the table unless its kind is there. -/
theorem mappings_foldl_push (ms : List TagMapping) (t : TagTable) :
    (ms.foldl push t).mappings = t.mappings
      ++ (ms.filter fun m ↦ m.format ∉ t.mappings.map (·.format)).eraseDupsBy
        fun m m' ↦ m.format == m'.format := by
  induction ms generalizing t with
  | nil => exact (List.append_nil _).symm
  | cons m ms ih =>
    rw [List.foldl_cons, ih, push]
    split
    · next hmem => rw [List.filter_cons_of_neg (by simpa using hmem)]
    · next hmem =>
      rw [List.filter_cons_of_pos (by simpa using hmem), List.eraseDupsBy_cons, List.filter_filter,
        List.append_assoc, List.singleton_append]
      -- a format that is still new was new before and is not the one just added
      have hfilter : (ms.filter fun m' ↦ m'.format ∉ (t.mappings ++ [m]).map (·.format))
          = ms.filter fun m' ↦ decide ((m'.format == m.format) = false)
            && decide (m'.format ∉ t.mappings.map (·.format)) := by
        refine List.filter_congr fun m' _ ↦ ?_
        simp only [List.map_append, List.map_singleton, List.mem_append, List.mem_singleton,
          not_or, Bool.decide_and, beq_eq_false_iff_ne, ne_eq, Bool.and_comm]
      rw [hfilter]

/-- The table has the first entry for each kind. -/
theorem mappings_ofList (ms : List TagMapping) :
    (ofList ms).mappings = ms.eraseDupsBy fun m m' ↦ m.format == m'.format := by
  rw [ofList, mappings_foldl_push]
  simp [empty]

theorem forall_mem_mappings_push {p : TagMapping → Prop} {t : TagTable} {m : TagMapping}
    (ht : ∀ m ∈ t.mappings, p m) (hm : p m) : ∀ m' ∈ (t.push m).mappings, p m' := by
  rw [push]
  split
  · exact ht
  · exact List.forall_mem_append.2 ⟨ht, List.forall_mem_singleton.2 hm⟩

/-- A table has no entries but those it is made of. -/
theorem forall_mem_mappings_ofList {p : TagMapping → Prop} {ms : List TagMapping}
    (h : ∀ m ∈ ms, p m) : ∀ m ∈ (ofList ms).mappings, p m :=
  List.foldlRecOn (motive := fun t ↦ ∀ m ∈ t.mappings, p m) ms push
    (fun _ hm ↦ absurd hm List.not_mem_nil) fun _ ht m hm ↦ forall_mem_mappings_push ht (h m hm)

end TagTable

namespace Span

/-- A span carries a range of some kind where such a range covers any of its characters. -/
theorem hasFormat_resolve {n : Nat} {ranges : List FormatRange} {s : Span}
    (hs : s ∈ resolve n ranges) {i : Nat} (hi : s.start ≤ i ∧ i < s.stop) (kind : String) :
    s.hasFormat kind = ranges.any fun r ↦ r.kind = kind ∧ r.start ≤ i ∧ i < r.stop := by
  have h := resolves_resolve n ranges
  have hn : i < n := Nat.lt_of_lt_of_le hi.2 (h.tiles.stop_le hs)
  rw [hasFormat, h.formats s hs i hi, Bool.eq_iff_iff, List.any_eq_true, List.any_eq_true]
  simp only [List.mem_map, List.mem_filter, decide_eq_true_eq, beq_iff_eq]
  constructor
  · rintro ⟨_, ⟨c, ⟨hc, hcov⟩, rfl⟩, hkind⟩
    obtain ⟨r, hr, -, rfl⟩ := FormatRange.mem_clampAll_iff.1 hc
    exact ⟨r, hr, hkind, hcov.1, Nat.lt_of_lt_of_le hcov.2 (Nat.min_le_left _ _)⟩
  · rintro ⟨r, hr, hkind, hstart, hstop⟩
    have hmin : i < min r.stop n := Nat.lt_min.2 ⟨hstop, hn⟩
    have hc := FormatRange.mem_clampAll_iff.2 ⟨r, hr, Nat.lt_of_le_of_lt hstart hmin, rfl⟩
    exact ⟨r, ⟨_, ⟨hc, hstart, hmin⟩, rfl⟩, hkind⟩

/-- The elements around a span are those around each of its characters. -/
theorem tagsOf_resolve {n : Nat} {ranges : List FormatRange} {s : Span}
    (hs : s ∈ resolve n ranges) {i : Nat} (hi : s.start ≤ i ∧ i < s.stop) (ms : List TagMapping) :
    (TagTable.ofList ms).tagsOf s = TagMapping.tagsAt ms ranges i := by
  rw [TagTable.tagsOf, TagMapping.tagsAt, TagTable.mappings_ofList]
  exact congrArg (List.map _) (List.filter_congr fun m _ ↦ hasFormat_resolve hs hi m.format)

/-- What is said of each character of a text is said of it span by span. -/
theorem flatMap_slice_mapIdx {β : Type} {text : List Char} {ranges : List FormatRange}
    {f : Span → β} {g : Nat → β}
    (h : ∀ s ∈ resolve text.length ranges, ∀ i, s.start ≤ i ∧ i < s.stop → f s = g i) :
    ((resolve text.length ranges).flatMap fun s ↦ (s.slice text).map (·, f s))
      = text.mapIdx fun i c ↦ (c, g i) := by
  have htiles := (tiles_resolve text.length ranges).flatMap_drop_take
    (text.mapIdx fun i c ↦ (c, g i))
  rw [List.drop_zero, List.take_of_length_le (by simp)] at htiles
  rw [← htiles]
  refine List.flatMap_congr fun s hs ↦ List.ext_getElem? fun k ↦ ?_
  rw [List.getElem?_map, slice, List.getElem?_drop, List.getElem?_drop, List.getElem?_take,
    List.getElem?_take]
  split
  · next hk =>
    rw [List.getElem?_mapIdx, h s hs (s.start + k) ⟨Nat.le_add_right _ _, hk⟩]
  · rfl

end Span

/-! ### Reading spans -/

/-- Opening tags come apart into the elements they open. -/
theorem pieces_openTags {names : List String}
    (h : ∀ name ∈ names, '>' ∉ name.toList ∧ '/' ∉ name.toList) (cs : List Char) :
    Html.pieces (openTags names ++ cs) = names.map .opening ++ Html.pieces cs := by
  have htags := Html.pieces_tags (names.map String.toList)
    (List.forall_mem_map.2 fun name hname ↦ (h name hname).1) cs
  rw [List.flatMap_map, List.map_map] at htags
  rw [openTags, htags]
  refine congrArg (· ++ _) (List.map_congr_left fun name hname ↦ ?_)
  exact Html.Piece.ofTag_toList (h name hname).2

/-- Closing tags come apart into the elements they close, the last one first. -/
theorem pieces_closeTags {names : List String} (h : ∀ name ∈ names, '>' ∉ name.toList)
    (cs : List Char) :
    Html.pieces (closeTags names ++ cs) = names.reverse.map .closing ++ Html.pieces cs := by
  have htags := Html.pieces_tags (names.reverse.map ('/' :: ·.toList)) (by simpa using h) cs
  rw [List.flatMap_map, List.map_map] at htags
  rw [closeTags, htags]
  exact congrArg (· ++ _) (List.map_congr_left fun name _ ↦ Html.Piece.ofTag_slash name)

namespace Span

section

variable {table : TagTable} (ht : table.IsAlphanumeric)
include ht

/-- A span is read as the characters it covers, each inside the elements around the span. -/
theorem placed_render (text : List Char) (s : Span) (cs : List Char) :
    Html.placed [] (Html.pieces (s.render table text ++ cs))
      = (Html.placed [] (Html.pieces cs)).map
        ((s.slice text).map (·, table.tagsOf s) ++ ·) := by
  have hgt : ∀ name ∈ table.tagsOf s, '>' ∉ name.toList := fun _ hname ↦
    ht.not_mem_of_mem_tagsOf hname (by decide)
  have hslash : ∀ name ∈ table.tagsOf s, '/' ∉ name.toList := fun _ hname ↦
    ht.not_mem_of_mem_tagsOf hname (by decide)
  rw [render]
  split
  · next h => simp [h]
  · rw [List.append_assoc, List.append_assoc,
      pieces_openTags fun name hname ↦ ⟨hgt name hname, hslash name hname⟩,
      Html.pieces_escapeChars, pieces_closeTags hgt, Html.placed_elements]

/-- Spans are read one after another. -/
theorem placed_renderAll (text : List Char) (ss : List Span) :
    Html.placed [] (Html.pieces (renderAll table text ss))
      = some (ss.flatMap fun s ↦ (s.slice text).map (·, table.tagsOf s)) := by
  induction ss with
  | nil => simp [renderAll, Html.pieces, Html.placed]
  | cons s ss ih => rw [renderAll_cons, placed_render ht, ih, Option.map_some, List.flatMap_cons]

end

end Span

/-- Read with a stack, the markup of a formatted text has every tag closed where it has to be, and
is the characters of the text in order, each inside the elements of the kinds of range over it. -/
theorem readElements_renderInline {ms : List TagMapping}
    (hms : ∀ m ∈ ms, m.tag ≠ "" ∧ ∀ c ∈ m.tag.toList, c.isAlphanum = true) (text : String)
    (ranges : List FormatRange) :
    Html.readElements (renderInline (.ofList ms) text ranges)
      = some (text.toList.mapIdx fun i c ↦ (c, TagMapping.tagsAt ms ranges i)) := by
  have ht : (TagTable.ofList ms).IsAlphanumeric := TagTable.forall_mem_mappings_ofList hms
  rw [Html.readElements, renderInline, String.toList_ofList, renderInlineChars,
    Span.placed_renderAll ht]
  exact congrArg some (Span.flatMap_slice_mapIdx fun _ hs _ hi ↦ Span.tagsOf_resolve hs hi ms)

/-- Two kinds cross, one of them is listed twice, and the text has a character of markup. -/
theorem readElements_renderInline_crossing :
    (∀ m ∈ ([⟨"italic", "em"⟩, ⟨"bold", "b"⟩, ⟨"italic", "i"⟩] : List TagMapping),
        m.tag ≠ "" ∧ ∀ c ∈ m.tag.toList, c.isAlphanum = true)
      ∧ Html.readElements
          (renderInline (.ofList [⟨"italic", "em"⟩, ⟨"bold", "b"⟩, ⟨"italic", "i"⟩]) "x<é"
            [⟨1, 9, "italic"⟩, ⟨0, 2, "bold"⟩, ⟨0, 2, "bold"⟩])
        = some [('x', ["b"]), ('<', ["em", "b"]), ('é', ["em"])] := by
  have hms : ∀ m ∈ ([⟨"italic", "em"⟩, ⟨"bold", "b"⟩, ⟨"italic", "i"⟩] : List TagMapping),
      m.tag ≠ "" ∧ ∀ c ∈ m.tag.toList, c.isAlphanum = true := by
    simp
  exact ⟨hms, readElements_renderInline hms _ _⟩

end PostBlocks
