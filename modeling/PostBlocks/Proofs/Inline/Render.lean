import PostBlocks.Proofs.Html.Carries
import PostBlocks.Proofs.Inline.Settled

/-!
# Rendered text carries itself

However a text is cut into spans and whichever elements these are wrapped in, the markup carries the
text (`carries_renderInlineChars`): each span carries what it covers, and together the spans cover
the text. So the text is what the markup displays. Of a table in which tags are ASCII letters and
digits, nothing that it puts between angle brackets looks like a comment or holds a line feed.
-/

namespace PostBlocks

open Html (Carries Displays IsTag)

namespace TagTable

/-- The table writes this between angle brackets. -/
def HasTag (t : TagTable) (name : List Char) : Prop :=
  ∃ m ∈ t.mappings, name = m.tag.toList ∨ name = '/' :: m.tag.toList

/-- Every tag of the table is a word of ASCII letters and digits. -/
def IsAlphanumeric (t : TagTable) : Prop :=
  ∀ m ∈ t.mappings, m.tag ≠ "" ∧ ∀ c ∈ m.tag.toList, c.isAlphanum = true

theorem mem_mappings_of_mem_tagsOf {t : TagTable} {s : Span} {tag : String}
    (h : tag ∈ t.tagsOf s) : ∃ m ∈ t.mappings, tag = m.tag := by
  obtain ⟨m, hm, rfl⟩ := List.mem_map.1 h
  exact ⟨m, (List.mem_filter.1 hm).1, rfl⟩

/-- A tag of such a table has no other characters. -/
theorem IsAlphanumeric.not_mem {t : TagTable} (ht : t.IsAlphanumeric) {m : TagMapping}
    (hm : m ∈ t.mappings) {c : Char} (hc : c.isAlphanum = false) : c ∉ m.tag.toList := by
  intro hmem
  rw [(ht m hm).2 c hmem] at hc
  cases hc

theorem IsAlphanumeric.not_mem_of_mem_tagsOf {t : TagTable} (ht : t.IsAlphanumeric) {s : Span}
    {tag : String} (htag : tag ∈ t.tagsOf s) {c : Char} (hc : c.isAlphanum = false) :
    c ∉ tag.toList := by
  obtain ⟨m, hm, rfl⟩ := mem_mappings_of_mem_tagsOf htag
  exact ht.not_mem hm hc

/-- What an alphanumeric table writes between angle brackets is no comment and has no line feed. -/
theorem HasTag.isTag {t : TagTable} (ht : t.IsAlphanumeric) {name : List Char}
    (h : t.HasTag name) : IsTag name ∧ '\n' ∉ name := by
  obtain ⟨m, hm, hname⟩ := h
  have hnot : ∀ c : Char, c.isAlphanum = false → c ∉ m.tag.toList := fun _ hc ↦ ht.not_mem hm hc
  rcases hname with rfl | rfl
  · refine ⟨⟨hnot _ (by decide), hnot _ (by decide), fun hhead ↦ ?_⟩, hnot _ (by decide)⟩
    exact hnot '!' (by decide) (List.mem_of_mem_head? hhead)
  · have hslash : ∀ c : Char, c ≠ '/' → c.isAlphanum = false → c ∉ '/' :: m.tag.toList :=
      fun c hne hc ↦ List.not_mem_cons_of_ne_of_not_mem hne (hnot c hc)
    exact ⟨⟨hslash _ (by decide) (by decide), hslash _ (by decide) (by decide), by simp⟩,
      hslash _ (by decide) (by decide)⟩

end TagTable

/-- Opening tags carry nothing. -/
theorem carries_openTags {p : List Char → Prop} {names : List String}
    (h : ∀ name ∈ names, p name.toList) : Carries p (openTags names) [] :=
  .tags String.toList names h

/-- Closing tags carry nothing. -/
theorem carries_closeTags {p : List Char → Prop} {names : List String}
    (h : ∀ name ∈ names, p ('/' :: name.toList)) : Carries p (closeTags names) [] :=
  .tags (fun name ↦ '/' :: name.toList) names.reverse fun name hname ↦
    h name (List.mem_reverse.1 hname)

namespace Span

/-- A span carries what it covers. -/
theorem carries_render (table : TagTable) (text : List Char) (s : Span) :
    Carries table.HasTag (s.render table text) (s.slice text) := by
  unfold render
  split
  · next h =>
    rw [h]
    exact .nil
  · have hopen : Carries table.HasTag (openTags (table.tagsOf s)) [] :=
      carries_openTags fun name hname ↦ by
        obtain ⟨m, hm, rfl⟩ := TagTable.mem_mappings_of_mem_tagsOf hname
        exact ⟨m, hm, .inl rfl⟩
    have hclose : Carries table.HasTag (closeTags (table.tagsOf s)) [] :=
      carries_closeTags fun name hname ↦ by
        obtain ⟨m, hm, rfl⟩ := TagTable.mem_mappings_of_mem_tagsOf hname
        exact ⟨m, hm, .inr rfl⟩
    exact hopen.between hclose (.escapeChars _)

theorem carries_renderAll (table : TagTable) (text : List Char) (spans : List Span) :
    Carries table.HasTag (renderAll table text spans) (spans.flatMap (·.slice text)) := by
  induction spans with
  | nil => exact .nil
  | cons s spans ih =>
    rw [renderAll_cons, List.flatMap_cons]
    exact (carries_render table text s).append ih

end Span

/-- A rendered text carries the text. -/
theorem carries_renderInlineChars (table : TagTable) (text : List Char)
    (ranges : List FormatRange) :
    Carries table.HasTag (renderInlineChars table text ranges) text := by
  have := Span.carries_renderAll table text (Span.resolve text.length ranges)
  rwa [Span.flatMap_slice_resolve] at this

/-- A rendered text displays the text, escaped. -/
theorem displays_renderInlineChars (table : TagTable) (text : List Char)
    (ranges : List FormatRange) :
    Displays table.HasTag (renderInlineChars table text ranges) (Html.escapeChars text) :=
  (carries_renderInlineChars table text ranges).displays

end PostBlocks
