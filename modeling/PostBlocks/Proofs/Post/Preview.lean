import PostBlocks.Proofs.Html.Preview
import PostBlocks.Proofs.Post.Convert

/-!
# Previews of built blocks

The markup of every block that is built carries the text of its source block or nothing, between
tags that leave nothing in a preview: those of the builders, those of a table without breaks
(`TagTable.HasTag.isSilentLine`) and the elements of images and sounds, whatever their addresses are
(`Html.isSilent_element`). So the preview of the block that carries a text is the preview of the
text, and no other preview shows anything (`SourceBlock.previews_build`).
-/

namespace PostBlocks

open Html (Carries IsSilent IsSilentLine Previews spaceFeeds)

/-! ### Silent tags -/

namespace Html

/-- Breaks are told from other tags in lower case, where nothing but a slash becomes one. -/
theorem eq_slash_of_toLower {c : Char} (h : c.toLower = '/') : c = '/' := by
  unfold Char.toLower at h
  split at h
  · have hval : c.val + ('a'.val - 'A'.val) = '/'.val := congrArg Char.val h
    grind
  · exact h

/-- A break has two or three characters between its angle brackets. -/
theorem isBreakTag_of_length {name : List Char} (h : 3 < name.length) :
    isBreakTag name = false := by
  have hne : ∀ short : List Char, short.length ≤ 3 → name.map Char.toLower ≠ short := by
    rintro short hshort rfl
    rw [List.length_map] at hshort
    omega
  rw [isBreakTag, Bool.or_eq_false_iff, beq_eq_false_iff_ne, beq_eq_false_iff_ne]
  exact ⟨hne _ (by decide), hne _ (by decide)⟩

/-- An element with an address for an attribute is silent, whatever the address is. -/
theorem isSilent_element {lead trail : List Char} (hlead : '>' ∉ lead) (hlength : 3 < lead.length)
    (htrail : '>' ∉ trail) (url : List Char) :
    IsSilent (lead ++ escapeChars url ++ '"' :: trail) := by
  refine ⟨?_, isBreakTag_of_length ?_⟩
  · have hurl : '>' ∉ escapeChars url := fun hmem ↦
      not_mem_escapeChars url '>' hmem (by decide)
    simp [hlead, hurl, htrail]
  · rw [List.length_append, List.length_append]
    omega

end Html

/-- No tag of the table is a break, in small letters or capital ones. -/
def TagTable.HasNoBreak (t : TagTable) : Prop :=
  ∀ m ∈ t.mappings, m.tag.toList.map Char.toLower ≠ ['b', 'r']

/-- The table that is there by default has no tag that reads as a break. -/
theorem TagTable.hasNoBreak_standard : standard.HasNoBreak := by
  rw [HasNoBreak, mappings_standard]
  decide

/-- What a table without breaks writes between angle brackets is silent. -/
theorem TagTable.HasTag.isSilentLine {t : TagTable} (ht : t.IsAlphanumeric) (hbr : t.HasNoBreak)
    {name : List Char} (h : t.HasTag name) : IsSilentLine name := by
  obtain ⟨⟨-, hgt, -⟩, hfeed⟩ := h.isTag ht
  refine ⟨⟨hgt, ?_⟩, hfeed⟩
  obtain ⟨m, hm, hname⟩ := h
  rw [Html.isBreakTag, Bool.or_eq_false_iff, beq_eq_false_iff_ne, beq_eq_false_iff_ne]
  rcases hname with rfl | rfl
  · have hslash : '/' ∉ m.tag.toList.map Char.toLower := fun hmem ↦ by
      obtain ⟨c, hc, hlower⟩ := List.mem_map.1 hmem
      obtain rfl := Html.eq_slash_of_toLower hlower
      exact ht.not_mem hm (by decide) hc
    exact ⟨hbr m hm, fun heq ↦ hslash (heq ▸ by decide)⟩
  · -- a closing tag starts with its slash
    exact ⟨fun heq ↦ absurd (List.cons.inj heq).1 (by decide),
      fun heq ↦ absurd (List.cons.inj heq).1 (by decide)⟩

/-! ### Built blocks -/

/-- The line feeds of the text are written as breaks. -/
def SourceBlock.breaksLines : SourceBlock → Bool
  | quote _ | chat _ | quirky _ | indented _ => true
  | _ => false

/-- The text is set as a paragraph inside another block. -/
def SourceBlock.isQuoted : SourceBlock → Bool
  | quote _ | chat _ | quirky _ => true
  | _ => false

/-- The text of a block, as far as its markup keeps it. -/
def SourceBlock.keptText (s : SourceBlock) (t : StyledText) : List Char :=
  if s.breaksLines then spaceFeeds t.text.toList else t.text.toList

/-- The block that is built, as an item or by itself. -/
def Built.toBlock : Built → Block
  | block b | item _ b => b

namespace Block

/-- The previews of a block and of everything inside it, in document order. -/
def previews (b : Block) : List (List Char) :=
  b.nodes.map fun c ↦ Html.preview c.html.toList

theorem previews_leaf (name : String) (attrs : Json.Fields) (html : String) :
    (leaf name attrs html).previews = [Html.preview html.toList] :=
  rfl

/-- Around its paragraph, a quote shows nothing. -/
theorem previews_quoteOf (className : Option String) (html : List Char) :
    (quoteOf className html).previews
      = [[], Html.preview (enclose "<p>" (Html.breakChars html) "</p>").toList] := by
  have hquote : Html.preview
      ("<blockquote class=\"wp-block-quote\">" ++ "</blockquote>").toList = [] := by decide
  rw [← hquote]
  rfl

/-- Around its items, a list shows nothing. -/
theorem preview_list (kind : ListKind) (items : List Block) :
    Html.preview (list kind items).html.toList = [] := by
  cases kind with
  | unordered =>
    show Html.preview ("<ul class=\"wp-block-list\">" ++ "</ul>").toList = []
    decide
  | ordered =>
    show Html.preview ("<ol class=\"wp-block-list\">" ++ "</ol>").toList = []
    decide

/-! ### Markup of builders -/

theorem carries_enclose {p : List Char → Prop} {opening closing : String} {html text : List Char}
    (hopening : Carries p opening.toList []) (hclosing : Carries p closing.toList [])
    (h : Carries p html text) : Carries p (enclose opening html closing).toList text := by
  rw [enclose, String.toList_ofList]
  exact hopening.between hclosing h

section

variable {opening closing : String} {html text : List Char}
  (hopening : Carries IsSilentLine opening.toList [])
  (hclosing : Carries IsSilentLine closing.toList []) (h : Carries IsSilentLine html text)
include hopening hclosing h

/-- An element shows the text in it. -/
theorem previews_enclose : Previews text (Html.preview (enclose opening html closing).toList) :=
  (carries_enclose hopening hclosing h).previews fun _ hname ↦ hname.1

/-- An element without line feeds of its own shows the text in it, with spaces for breaks. -/
theorem previews_enclose_breakChars (hfeed : '\n' ∉ opening.toList ∧ '\n' ∉ closing.toList) :
    Previews (spaceFeeds text)
      (Html.preview (enclose opening (Html.breakChars html) closing).toList) := by
  have hbreaks : (enclose opening (Html.breakChars html) closing).toList
      = Html.breakChars (enclose opening html closing).toList := by
    rw [enclose, enclose, String.toList_ofList, String.toList_ofList, Html.breakChars_append,
      Html.breakChars_append, Html.breakChars_eq_self hfeed.1, Html.breakChars_eq_self hfeed.2]
  rw [hbreaks]
  exact (carries_enclose hopening hclosing h).previews_breakChars fun _ hname ↦ hname

end

/-- A rendered text carries the text between tags that are silent. -/
theorem carries_styled {table : TagTable} (ht : table.IsAlphanumeric) (hbr : table.HasNoBreak)
    (t : StyledText) :
    Carries IsSilentLine (styled table t) t.text.toList :=
  (carries_renderInlineChars table t.text.toList t.formatting).imp fun _ hname ↦
    hname.isSilentLine ht hbr

theorem previews_paragraphOf {html text : List Char} (h : Carries IsSilentLine html text) :
    ∃ shown, Previews text shown ∧ (paragraphOf html).previews = [shown] :=
  ⟨_, previews_enclose (.tags String.toList ["p"] (by decide))
    (.tags String.toList ["/p"] (by decide)) h, rfl⟩

/-- A heading of either level shows the text. -/
theorem exists_previews_heading {table : TagTable} {level : Nat} (hlevel : level = 1 ∨ level = 2)
    {t : StyledText} (h : Carries IsSilentLine (styled table t) t.text.toList) :
    ∃ shown, Previews t.text.toList shown ∧ (heading table level t).previews = [shown] := by
  refine ⟨_, ?_, rfl⟩
  rcases hlevel with rfl | rfl
  · rw [Json.decimalChars_of_lt (show 1 < 10 by decide)]
    exact previews_enclose (.tags String.toList ["h1 class=\"wp-block-heading\""] (by decide))
      (.tags String.toList ["/h1"] (by decide)) h
  · rw [Json.decimalChars_of_lt (show 2 < 10 by decide)]
    exact previews_enclose (.tags String.toList ["h2 class=\"wp-block-heading\""] (by decide))
      (.tags String.toList ["/h2"] (by decide)) h

/-- The paragraph of a quote shows the text, with spaces for line feeds. -/
theorem exists_previews_quoteOf (className : Option String) {html text : List Char}
    (h : Carries IsSilentLine html text) : ∃ shown, Previews (spaceFeeds text) shown
      ∧ (quoteOf className html).previews = [[], shown] :=
  ⟨_, previews_enclose_breakChars (.tags String.toList ["p"] (by decide))
    (.tags String.toList ["/p"] (by decide)) h (by decide), previews_quoteOf className html⟩

/-- An element with an address for an attribute, between other elements, shows nothing. -/
theorem preview_element {opening lead trail closing : List Char}
    (hopening : Carries IsSilent opening []) (hclosing : Carries IsSilent closing [])
    (hlead : '>' ∉ lead) (hlength : 3 < lead.length) (htrail : '>' ∉ trail) (url : List Char) :
    Html.preview
      (opening ++ '<' :: (lead ++ Html.escapeChars url ++ '"' :: trail) ++ '>' :: closing)
        = [] := by
  have hrest : Carries IsSilent
      ('<' :: (lead ++ Html.escapeChars url ++ '"' :: trail) ++ '>' :: closing) [] :=
    .tag (Html.isSilent_element hlead hlength htrail url) hclosing
  have hall := (hopening.append hrest).previews fun _ hname ↦ hname
  rw [Html.previews_iff] at hall
  rw [List.append_assoc, hall]
  rfl

theorem previews_imageOf (url : String) (width height : Option Nat) :
    (imageOf url width height).previews = [[]] := by
  have hsizes : '>' ∉ sizeChars "width" width ++ sizeChars "height" height := by
    rw [List.mem_append, not_or]
    exact ⟨not_mem_sizeChars width (by decide) (by decide),
      not_mem_sizeChars height (by decide) (by decide)⟩
  have hopening : Carries IsSilent "<figure class=\"wp-block-image\">".toList [] :=
    .tags String.toList ["figure class=\"wp-block-image\""] (by decide)
  have hclosing : Carries IsSilent "</figure>".toList [] :=
    .tags String.toList ["/figure"] (by decide)
  have hlead : '>' ∉ "img src=\"".toList := by decide
  have hnone := preview_element hopening hclosing hlead (by decide) hsizes url.toList
  rw [imageOf, previews_leaf]
  simpa [enclose] using hnone

theorem previews_audioOf (src : String) : (audioOf src).previews = [[]] := by
  have hopening : Carries IsSilent "<figure class=\"wp-block-audio\">".toList [] :=
    .tags String.toList ["figure class=\"wp-block-audio\""] (by decide)
  have hclosing : Carries IsSilent "</audio></figure>".toList [] :=
    .tags String.toList ["/audio", "/figure"] (by decide)
  have hlead : '>' ∉ "audio controls src=\"".toList := by decide
  have hnone := preview_element hopening hclosing hlead (by decide) List.not_mem_nil src.toList
  rw [audioOf, previews_leaf]
  simpa [enclose] using hnone

end Block

/-! ### Source blocks -/

namespace SourceBlock

section

variable {table : TagTable} (ht : table.IsAlphanumeric) (hbr : table.HasNoBreak)
include ht hbr

/-- A block that carries a text is built, and shows the text. -/
theorem exists_previews_of_styledText? {s : SourceBlock} {t : StyledText}
    (hs : s.styledText? = some t) (index : Nat) : ∃ built shown,
      s.build table index = .ok built ∧ Previews (s.keptText t) shown
        ∧ built.toBlock.previews = if s.isQuoted then [[], shown] else [shown] := by
  have hstyled := Block.carries_styled ht hbr t
  have hplain : Carries IsSilentLine (Html.escapeChars t.text.toList) t.text.toList :=
    .escapeChars _
  cases s with
  | image media | audio media url => cases hs
  | paragraph t' | fallback kind t' =>
    cases hs
    obtain ⟨shown, hshown, hblock⟩ := Block.previews_paragraphOf hstyled
    exact ⟨_, shown, rfl, hshown, hblock⟩
  | heading1 t' =>
    cases hs
    obtain ⟨shown, hshown, hblock⟩ := Block.exists_previews_heading (.inl rfl) hstyled
    exact ⟨_, shown, rfl, hshown, hblock⟩
  | heading2 t' =>
    cases hs
    obtain ⟨shown, hshown, hblock⟩ := Block.exists_previews_heading (.inr rfl) hstyled
    exact ⟨_, shown, rfl, hshown, hblock⟩
  | quote t' =>
    cases hs
    obtain ⟨shown, hshown, hblock⟩ := Block.exists_previews_quoteOf none hstyled
    exact ⟨_, shown, rfl, hshown, hblock⟩
  | chat t' =>
    cases hs
    obtain ⟨shown, hshown, hblock⟩ := Block.exists_previews_quoteOf (some "chat") hstyled
    exact ⟨_, shown, rfl, hshown, hblock⟩
  | quirky t' =>
    cases hs
    obtain ⟨shown, hshown, hblock⟩ := Block.exists_previews_quoteOf (some "quirky") hplain
    exact ⟨_, shown, rfl, hshown, hblock⟩
  | indented t' =>
    cases hs
    exact ⟨_, _, rfl, Block.previews_enclose_breakChars
      (.tags String.toList ["figure class=\"wp-block-pullquote\"", "blockquote", "p"] (by decide))
      (.tags String.toList ["/p", "/blockquote", "/figure"] (by decide)) hstyled (by decide), rfl⟩
  | listItem kind t' =>
    cases hs
    exact ⟨_, _, rfl, Block.previews_enclose (.tags String.toList ["li"] (by decide))
      (.tags String.toList ["/li"] (by decide)) hplain, rfl⟩

end

/-- What is built for an image or a sound shows nothing. -/
theorem previews_of_styledText? {table : TagTable} {s : SourceBlock} {index : Nat} {built : Built}
    (hs : s.styledText? = none) (h : s.build table index = .ok built) :
    built.toBlock.previews = [[]] := by
  match s, h with
  | .image (⟨some url, width, height⟩ :: _), h =>
    obtain rfl := Except.ok.inj h
    exact Block.previews_imageOf url width height
  | .audio media url, h =>
    rw [build, Block.audio] at h
    split at h
    · obtain rfl := Except.ok.inj h
      exact Block.previews_audioOf _
    · cases h

/-- Under a table without breaks, every block that carries a text is built, and the preview of what
carries it, for quotes the paragraph in them, is that of the text; line feeds show as spaces where
they are written as breaks. The blocks around paragraphs and list items, images and sounds show
nothing. -/
theorem previews_build {table : TagTable} (ht : table.IsAlphanumeric) (hbr : table.HasNoBreak) :
    (∀ (s : SourceBlock) (t : StyledText) (index : Nat), s.styledText? = some t →
        ∃ built shown, s.build table index = .ok built
          ∧ Previews (if s.breaksLines then spaceFeeds t.text.toList else t.text.toList) shown
          ∧ built.toBlock.previews = if s.isQuoted then [[], shown] else [shown])
      ∧ (∀ (s : SourceBlock) (index : Nat) (built : Built), s.styledText? = none →
        s.build table index = .ok built → built.toBlock.previews = [[]])
      ∧ ∀ (kind : ListKind) (items : List Block),
        Html.preview (Block.list kind items).html.toList = [] :=
  ⟨fun _ _ index hs ↦ exists_previews_of_styledText? ht hbr hs index,
    fun _ _ _ hs h ↦ previews_of_styledText? hs h, Block.preview_list⟩

/-- A quote of which a format is cut off in the middle of an entity that is none. -/
theorem previews_build_quote : ∃ built,
    (quote ⟨" a<\n&lt; ", [⟨2, 5, "bold"⟩]⟩).build .standard 0 = .ok built
      ∧ built.toBlock.previews = [[], "a< &lt;".toList] := by
  obtain ⟨built, shown, hbuild, hshown, hpreviews⟩ :=
    (previews_build TagTable.isAlphanumeric_standard TagTable.hasNoBreak_standard).1
      (quote ⟨" a<\n&lt; ", [⟨2, 5, "bold"⟩]⟩) ⟨" a<\n&lt; ", [⟨2, 5, "bold"⟩]⟩ 0 rfl
  rw [Html.previews_iff] at hshown
  refine ⟨built, hbuild, hpreviews.trans ?_⟩
  rw [hshown]
  decide

end SourceBlock

end PostBlocks
