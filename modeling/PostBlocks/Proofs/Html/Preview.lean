import PostBlocks.Html.Preview
import PostBlocks.Proofs.Html.Carries

/-!
# Previews show the text that markup carries

Tags leave nothing in a preview unless they are breaks, and what they hold does not end them
(`IsSilent`). So without its tags, markup is the text that it carries, escaped, and if line feeds
are written as breaks, the text with a space for each of them (`Carries.stripTags_breakChars`). What
the preview shows is then settled by the text alone (`Previews`): entities are read back, the blank
ends are cut off, and of more than thirty characters the first twenty-nine are left.
-/

namespace PostBlocks.Html

/-- A text without its blank ends; of more than thirty characters, the first twenty-nine and an
ellipsis. -/
def Previews (text shown : List Char) : Prop :=
  ∃ kept, Text.Trims text kept ∧ shown = if 30 < kept.length then kept.take 29 ++ ['…'] else kept

/-- A text has one preview. -/
theorem previews_iff {text shown : List Char} :
    Previews text shown ↔ shown = shorten (Text.trim text) := by
  constructor
  · rintro ⟨kept, hkept, rfl⟩
    rw [hkept.trim_eq]
    rfl
  · rintro rfl
    exact ⟨_, Text.trims_trim text, rfl⟩

/-- A text with a space for every line feed. -/
def spaceFeeds (text : List Char) : List Char :=
  text.map fun c ↦ if c = '\n' then ' ' else c

theorem feed_not_mem_spaceFeeds (text : List Char) : '\n' ∉ spaceFeeds text := by
  intro hmem
  obtain ⟨c, -, hc⟩ := List.mem_map.1 hmem
  split at hc
  · exact absurd hc (by decide)
  · next hne => exact hne hc

/-- A preview has no line feed that its text does not have. -/
theorem Previews.feed_not_mem {text shown : List Char} (h : Previews text shown)
    (htext : '\n' ∉ text) : '\n' ∉ shown := by
  obtain ⟨kept, ⟨⟨lead, trail, rfl, -⟩, -, -⟩, rfl⟩ := h
  have hkept : '\n' ∉ kept := fun hmem ↦ htext (by simp [hmem])
  split
  · simp only [List.mem_append, List.mem_singleton, not_or]
    exact ⟨fun hmem ↦ hkept (List.mem_of_mem_take hmem), by decide⟩
  · exact hkept

/-! ### Markup without its tags -/

/-- A tag of which nothing is left. -/
def IsSilent (name : List Char) : Prop :=
  '>' ∉ name ∧ isBreakTag name = false

instance (name : List Char) : Decidable (IsSilent name) :=
  inferInstanceAs (Decidable (_ ∧ _))

/-- A silent tag on one line. -/
def IsSilentLine (name : List Char) : Prop :=
  IsSilent name ∧ '\n' ∉ name

instance (name : List Char) : Decidable (IsSilentLine name) :=
  inferInstanceAs (Decidable (_ ∧ _))

/-- Text without angle brackets is no part of a tag. -/
theorem stripTags_append {cs : List Char} (h : '<' ∉ cs) (ds : List Char) :
    stripTags (cs ++ ds) = cs ++ stripTags ds := by
  induction cs with
  | nil => rfl
  | cons c cs ih =>
    rw [List.mem_cons, not_or] at h
    rw [List.cons_append, stripTags, if_neg (Ne.symm h.1), ih h.2, List.cons_append]

/-- A tag ends at its first closing bracket, whatever of it has been read. -/
theorem stripInTag_append {name : List Char} (h : '>' ∉ name) (tag cs : List Char) :
    stripInTag tag (name ++ '>' :: cs)
      = if isBreakTag (tag.reverse ++ name) then ' ' :: stripTags cs else stripTags cs := by
  induction name generalizing tag with
  | nil => rw [List.nil_append, stripInTag, if_pos rfl, List.append_nil]
  | cons c name ih =>
    rw [List.mem_cons, not_or] at h
    rw [List.cons_append, stripInTag, if_neg (Ne.symm h.1), ih h.2, List.reverse_cons,
      List.append_assoc, List.singleton_append]

/-- A silent tag leaves nothing behind. -/
theorem stripTags_tag {name : List Char} (h : IsSilent name) (cs : List Char) :
    stripTags ('<' :: name ++ '>' :: cs) = stripTags cs := by
  rw [List.cons_append, stripTags, if_pos rfl, stripInTag_append h.1, List.reverse_nil,
    List.nil_append, if_neg (by simp [h.2])]

theorem stripTags_break (cs : List Char) :
    stripTags ("<br>".toList ++ cs) = ' ' :: stripTags cs := by
  show stripTags ('<' :: (['b', 'r'] ++ '>' :: cs)) = _
  rw [stripTags, if_pos rfl, stripInTag_append (by decide), if_pos (by decide)]

namespace Carries

variable {p : List Char → Prop} {html text : List Char}

/-- Without its tags, markup is the text that it carries, escaped. -/
theorem stripTags_eq (hp : ∀ name, p name → IsSilent name) (h : Carries p html text) :
    stripTags html = Html.escapeChars text := by
  induction h with
  | nil => rfl
  | char c _ ih => rw [stripTags_append (lt_not_mem_escapeChar c), ih, escapeChars_cons]
  | tag hname _ ih => rw [stripTags_tag (hp _ hname), ih]

/-- Without its tags, markup with breaks is the text that it carries, escaped, with spaces for line
feeds. -/
theorem stripTags_breakChars (hp : ∀ name, p name → IsSilentLine name)
    (h : Carries p html text) :
    stripTags (breakChars html) = Html.escapeChars (spaceFeeds text) := by
  induction h with
  | nil => rfl
  | @char c html text _ ih =>
    rw [breakChars_append, spaceFeeds, List.map_cons, escapeChars_cons]
    by_cases hfeed : c = '\n'
    · subst hfeed
      show stripTags ("<br>".toList ++ breakChars html) = ' ' :: Html.escapeChars (spaceFeeds text)
      rw [stripTags_break, ih]
    · rw [if_neg hfeed, breakChars_eq_self (feed_not_mem_escapeChar hfeed),
        stripTags_append (lt_not_mem_escapeChar c), ih, spaceFeeds]
  | @tag name html text hname _ ih =>
    obtain ⟨hsilent, hfeed⟩ := hp name hname
    have hne : '\n' ∉ '<' :: name ++ ['>'] := by simp [hfeed]
    rw [← List.singleton_append (l := html), ← List.append_assoc, breakChars_append,
      breakChars_eq_self hne, List.append_assoc]
    rw [List.singleton_append, stripTags_tag hsilent, ih]

/-- The preview of some markup is that of the text it carries. -/
theorem previews (hp : ∀ name, p name → IsSilent name) (h : Carries p html text) :
    Previews text (preview html) := by
  rw [previews_iff, preview, h.stripTags_eq hp, unescapeChars_escapeChars]

/-- The preview of markup with breaks is that of the text it carries, with spaces for line feeds. -/
theorem previews_breakChars (hp : ∀ name, p name → IsSilentLine name)
    (h : Carries p html text) : Previews (spaceFeeds text) (preview (breakChars html)) := by
  rw [previews_iff, preview, h.stripTags_breakChars hp, unescapeChars_escapeChars]

end Carries

end PostBlocks.Html
