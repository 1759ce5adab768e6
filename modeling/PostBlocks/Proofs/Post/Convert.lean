import PostBlocks.Proofs.Block.RoundTrip
import PostBlocks.Proofs.Post.Build

/-!
# Converted posts

Whatever the texts, ranges and addresses of a post are, its tree reads back from its markup
(`Post.parse_markup`), since the tree is writable and no markup in it starts a comment. And whatever
the ranges do to the texts, none of their characters is lost or moved: they can be read off the HTML
of the tree (`Block.displayed_documentHtml`).
-/

namespace PostBlocks

theorem TagTable.mappings_standard :
    standard.mappings = [⟨"bold", "strong"⟩, ⟨"italic", "em"⟩] :=
  rfl

/-- The table that is there by default meets the condition on tags. -/
theorem TagTable.isAlphanumeric_standard : standard.IsAlphanumeric := by
  simp [IsAlphanumeric, mappings_standard]

/-! ### Markup -/

/-- The tree of a post is balanced, can be written and reads back. -/
theorem Block.exists_parse_ofSource {table : TagTable} (ht : table.IsAlphanumeric)
    {ss : List SourceBlock} {bs : List Block} (hs : ∀ s ∈ ss, s.HasWordSizes)
    (h : ofSource table ss = .ok bs) :
    areBalanced bs = true ∧ ∃ m, documentMarkup bs = .ok m ∧ parse m = .ok bs := by
  have hshows : ShowsEach Html.IsTag bs _ :=
    showsEach_ofSource (fun _ htag _ ↦ htag) ht (fun _ hname ↦ (hname.isTag ht).1) hs h
  have hwritable := hshows.isWritable
  exact ⟨areBalanced_of_isTidy bs fun c hc ↦ (hwritable c hc).tidy,
    exists_parse_documentMarkup hwritable
      (isSettled_of_no_comment (hshows.no_comment fun _ htag ↦ htag))⟩

/-- The tree of a post is never found unbalanced. -/
theorem Post.markup_ne_imbalance {table : TagTable} (ht : table.IsAlphanumeric) (source : String)
    (i : Imbalance) : markup table source ≠ .error (.imbalance i) := by
  intro h
  rcases Except.bind_eq_error_iff.1 h with hdecode | ⟨ss, hdecode, h⟩
  · rcases error_of_decodeNode hdecode with heq | ⟨_, _, heq⟩ <;> cases heq
  · rcases Except.bind_eq_error_iff.1 h with hbuild | ⟨bs, hbuild, h⟩
    · obtain ⟨_, _, heq⟩ := Block.error_of_ofSource hbuild
      cases heq
    · obtain ⟨-, m, hwrite, -⟩ :=
        Block.exists_parse_ofSource ht (hasWordSizes_of_decodeNode hdecode) hbuild
      rw [hwrite] at h
      cases h

/-- The markup of a post reads back as the tree the post was built into. -/
theorem Post.exists_parse_of_markup {table : TagTable} (ht : table.IsAlphanumeric)
    {source m : String} (h : markup table source = .ok m) :
    ∃ ss bs, decode source = .ok ss ∧ Block.ofSource table ss = .ok bs
      ∧ Block.parse m = .ok bs := by
  obtain ⟨ss, hdecode, h⟩ := Except.bind_eq_ok_iff.1 h
  obtain ⟨bs, hbuild, h⟩ := Except.bind_eq_ok_iff.1 h
  obtain ⟨-, m', hwrite, hparse⟩ :=
    Block.exists_parse_ofSource ht (hasWordSizes_of_decodeNode hdecode) hbuild
  rw [hwrite] at h
  cases h
  exact ⟨ss, bs, hdecode, hbuild, hparse⟩

/-- Posts convert to markup that reads back as the very tree they were built into, and what a post
contains never makes its tree unbalanced. -/
theorem Post.parse_markup {table : TagTable} (ht : table.IsAlphanumeric) :
    (∀ ss bs, (∀ s ∈ ss, s.HasWordSizes) → Block.ofSource table ss = .ok bs →
      Block.areBalanced bs = true
        ∧ ∃ m, Block.documentMarkup bs = .ok m ∧ Block.parse m = .ok bs)
    ∧ ∀ source, (∀ i, markup table source ≠ .error (.imbalance i))
      ∧ ∀ m, markup table source = .ok m → ∃ ss bs, decode source = .ok ss
        ∧ Block.ofSource table ss = .ok bs ∧ Block.parse m = .ok bs :=
  ⟨fun _ _ hs h ↦ Block.exists_parse_ofSource ht hs h,
    fun source ↦ ⟨markup_ne_imbalance ht source, fun _ h ↦ exists_parse_of_markup ht h⟩⟩

/-- The text of the paragraph and the address of the image look like delimiters. -/
theorem Post.parse_markup_comment : ∃ m,
    Block.documentMarkup [Block.paragraph .standard ⟨"<!-- wp:x -->", [⟨1, 4, "bold"⟩]⟩,
        Block.imageOf "\"\x7d--><!-- wp:x" (some 640) none] = .ok m
      ∧ Block.parse m = .ok [Block.paragraph .standard ⟨"<!-- wp:x -->", [⟨1, 4, "bold"⟩]⟩,
        Block.imageOf "\"\x7d--><!-- wp:x" (some 640) none] := by
  have hsizes : ∀ s ∈ [.paragraph ⟨"<!-- wp:x -->", [⟨1, 4, "bold"⟩]⟩,
      .image [⟨some "\"\x7d--><!-- wp:x", some 640, none⟩]], SourceBlock.HasWordSizes s := by
    simp [SourceBlock.HasWordSizes, Media.HasWordSizes, Json.Number.IsWord]
  exact ((Post.parse_markup TagTable.isAlphanumeric_standard).1 _ _ hsizes rfl).2

/-! ### HTML -/

theorem SourceBlock.flatMap_textChars (ss : List SourceBlock) :
    ss.flatMap textChars
      = (String.join (ss.filterMap fun s ↦ s.styledText?.map (·.text))).toList := by
  rw [String.toList_join]
  induction ss with
  | nil => rfl
  | cons s ss ih =>
    rw [List.flatMap_cons, ih, List.filterMap_cons, textChars]
    cases s.styledText? <;> rfl

/-- The HTML of a post, with its breaks read, its tags dropped and its entities decoded, is the text
of the post: the texts of its blocks one after another. -/
theorem Block.displayed_documentHtml {table : TagTable} (ht : table.IsAlphanumeric)
    (hbr : ∀ m ∈ table.mappings, m.tag ≠ "br") {ss : List SourceBlock} {bs : List Block}
    (hs : ∀ s ∈ ss, s.HasWordSizes) (h : ofSource table ss = .ok bs) :
    ∃ html, documentHtml bs = .ok html
      ∧ Html.displayed html = String.join (ss.filterMap fun s ↦ s.styledText?.map (·.text)) := by
  have htable : ∀ name, table.HasTag name → Html.IsTag name ∧ name ≠ ['b', 'r'] := by
    intro name hname
    refine ⟨(hname.isTag ht).1, ?_⟩
    obtain ⟨m, hm, rfl | rfl⟩ := hname
    · exact fun heq ↦ hbr m hm (String.toList_inj.1 heq)
    · exact fun heq ↦ absurd (List.cons.inj heq).1 (by decide)
  have hshows : ShowsEach (fun name ↦ Html.IsTag name ∧ name ≠ ['b', 'r']) bs _ :=
    showsEach_ofSource (fun _ htag hne ↦ ⟨htag, hne⟩) ht htable hs h
  obtain ⟨parts, hrender, hdisplays⟩ := hshows.htmlChars
  refine ⟨.ofList parts.flatten, ?_, ?_⟩
  · rw [documentHtml, documentHtmlChars, hrender]
    rfl
  · rw [Html.displayed, String.toList_ofList, hdisplays.dropTags_readBreaks fun _ hname ↦ hname,
      Html.unescape, String.toList_ofList, Html.unescapeChars_escapeChars,
      SourceBlock.flatMap_textChars, String.ofList_toList]

/-- The item's text looks like an entity and a break, and is displayed as it is. -/
theorem Block.displayed_documentHtml_list : ∃ html,
    documentHtml (group [.block (quote .standard ⟨"a<\nb", [⟨0, 3, "bold"⟩, ⟨2, 9, "italic"⟩]⟩),
        .item .ordered (listItem ⟨"&lt;br>", []⟩), .block (imageOf "x" none none)]) = .ok html
      ∧ Html.displayed html = "a<\nb&lt;br>" := by
  have hsizes : ∀ s ∈ [.quote ⟨"a<\nb", [⟨0, 3, "bold"⟩, ⟨2, 9, "italic"⟩]⟩,
      .listItem .ordered ⟨"&lt;br>", []⟩, .image [⟨some "x", none, none⟩]],
      SourceBlock.HasWordSizes s := by
    simp [SourceBlock.HasWordSizes, Media.HasWordSizes]
  have hbr : ∀ m ∈ TagTable.standard.mappings, m.tag ≠ "br" := by
    rw [TagTable.mappings_standard]
    decide
  exact displayed_documentHtml TagTable.isAlphanumeric_standard hbr hsizes rfl

end PostBlocks
