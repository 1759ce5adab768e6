import PostBlocks.Proofs.Block.Listing
import PostBlocks.Proofs.Inline.Render
import PostBlocks.Proofs.Post.Decode

/-!
# Built blocks show their texts

Every builder makes leaves and containers whose names and attributes a delimiter can spell and whose
markup displays the text of the source block, escaped; images and sounds display nothing
(`SourceBlock.shows_build`). So the tree of a post displays the texts of its blocks in order
(`Block.showsEach_ofSource`), whatever these texts and the addresses of media are.

`p` says what tags may hold, and all that is asked of it is that it allows whatever is no comment
and no break (`AllowsTags`) and what the table writes. So one set of lemmas serves two readings:
that no comment is hidden in the markup of a post, and that its text can be read off it.

Line feeds are not followed here. Some builders write them as breaks and some leave them alone, and
`Displays` takes both for line feeds of the text; what becomes of them in a preview needs to tell
the two apart and has a relation of its own. Sizes of images are assumed to be numbers of a 64-bit
word, which is what decoding gives.
-/

namespace PostBlocks

open Html (Displays IsTag AllowsTags)

/-- The characters of the text that a block carries. -/
def SourceBlock.textChars (s : SourceBlock) : List Char :=
  (s.styledText?.map (·.text.toList)).getD []

namespace Block

/-! ### Attributes -/

theorem isRepresentable_single (key : String) {v : Json} (hwords : v.HasWordNumbers)
    (hdepth : v.depth = 0) : Attributes.IsRepresentable [(key, v)] :=
  Attributes.isRepresentable_of_flat (List.nodup_cons.2 ⟨List.not_mem_nil, List.nodup_nil⟩)
    (List.forall_mem_singleton.2 ⟨hwords, hdepth⟩)

/-- The attributes of an image can be held. -/
theorem isRepresentable_image (url : String) {width height : Option Nat}
    (hwidth : ∀ n ∈ width, Json.Number.IsWord n) (hheight : ∀ n ∈ height, Json.Number.IsWord n) :
    Attributes.IsRepresentable
      (("url", .string url) :: sizeFields "width" width ++ sizeFields "height" height) := by
  have hsize : ∀ (name : String) (size : Option Nat), (∀ n ∈ size, Json.Number.IsWord n) →
      ∀ f ∈ sizeFields name size, f.2.HasWordNumbers ∧ f.2.depth = 0 := by
    intro name size hsize f hf
    cases size with
    | none => cases hf
    | some n =>
      rw [List.mem_singleton.1 hf]
      exact ⟨hsize n rfl, rfl⟩
  refine Attributes.isRepresentable_of_flat ?_ ?_
  · cases width <;> cases height <;> simp [sizeFields]
  · rw [List.cons_append, List.forall_mem_cons, List.forall_mem_append]
    exact ⟨⟨trivial, rfl⟩, hsize "width" width hwidth, hsize "height" height hheight⟩

variable {p : List Char → Prop}

/-! ### Markup -/

theorem displays_enclose {opening closing : String} {html text : List Char}
    (hopening : Displays p opening.toList []) (hclosing : Displays p closing.toList [])
    (h : Displays p html text) : Displays p (enclose opening html closing).toList text := by
  rw [enclose, String.toList_ofList]
  exact hopening.between hclosing h

theorem displays_escapeChars (cs : List Char) :
    Displays p (Html.escapeChars cs) (Html.escapeChars cs) :=
  .self fun hmem ↦ absurd (Html.not_mem_escapeChars _ _ hmem) (by decide)

/-- A rendered text with breaks displays the text. -/
theorem displays_breakChars_styled {table : TagTable} (ht : table.IsAlphanumeric)
    (htable : ∀ name, table.HasTag name → p name) (t : StyledText) :
    Displays p (Html.breakChars (styled table t)) (Html.escapeChars t.text.toList) :=
  ((displays_renderInlineChars table t.text.toList t.formatting).breakChars
    fun _ hname ↦ (hname.isTag ht).2).imp htable

/-- An escaped text with breaks displays the text. -/
theorem displays_breakChars_escapeChars (cs : List Char) :
    Displays p (Html.breakChars (Html.escapeChars cs)) (Html.escapeChars cs) := by
  have hself : Displays (fun _ ↦ False) (Html.escapeChars cs) (Html.escapeChars cs) :=
    displays_escapeChars cs
  exact (hself.breakChars fun _ hname ↦ hname.elim).imp fun _ hname ↦ hname.elim

/-- A written size has the characters of its name and digits, so no angle bracket. -/
theorem not_mem_sizeChars {c : Char} {name : String} (size : Option Nat)
    (hname : c ∉ ' ' :: name.toList ++ ['=', '"']) (hc : c.isDigit = false) :
    c ∉ sizeChars name size := by
  cases size with
  | none => exact List.not_mem_nil
  | some n =>
    have hdigits : c ∉ Json.decimalChars n := fun hmem ↦ by
      rw [Json.isDigit_of_mem_decimalChars hmem] at hc
      cases hc
    simp_all [sizeChars]

/-! ### Builders -/

section

variable (hp : AllowsTags p)
include hp

theorem shows_paragraphOf {html text : List Char} (h : Displays p html text) :
    (paragraphOf html).Shows p text :=
  .leaf (by decide) Attributes.isRepresentable_nil
    (displays_enclose (.ofTags hp ["p"] (by decide)) (.ofTags hp ["/p"] (by decide)) h)

/-- A heading of either level. Its text is rendered without breaks. -/
theorem shows_heading {table : TagTable} (htable : ∀ name, table.HasTag name → p name)
    {level : Nat} (hlevel : level = 1 ∨ level = 2) (t : StyledText) :
    (heading table level t).Shows p (Html.escapeChars t.text.toList) := by
  have hstyled : Displays p (styled table t) (Html.escapeChars t.text.toList) :=
    (displays_renderInlineChars table t.text.toList t.formatting).imp htable
  have hone : Json.Number.IsWord (1 : Nat) := by decide
  rcases hlevel with rfl | rfl
  · rw [heading, Json.decimalChars_of_lt (show 1 < 10 by decide)]
    exact .leaf (by decide) (isRepresentable_single "level" hone rfl)
      (displays_enclose (.ofTags hp ["h1 class=\"wp-block-heading\""] (by decide))
        (.ofTags hp ["/h1"] (by decide)) hstyled)
  · rw [heading, Json.decimalChars_of_lt (show 2 < 10 by decide)]
    exact .leaf (by decide) Attributes.isRepresentable_nil
      (displays_enclose (.ofTags hp ["h2 class=\"wp-block-heading\""] (by decide))
        (.ofTags hp ["/h2"] (by decide)) hstyled)

/-- A quote of either kind is a container of one paragraph. -/
theorem shows_quoteOf (className : Option String) {html text : List Char}
    (h : Displays p (Html.breakChars html) text) : (quoteOf className html).Shows p text := by
  refine .container (by decide) ?_ (.ofTags hp ["blockquote class=\"wp-block-quote\""] (by decide))
    (.ofTags hp ["/blockquote"] (by decide)) (by decide) (List.cons_ne_nil _ _)
    (.single (shows_paragraphOf hp h))
  cases className with
  | none => exact Attributes.isRepresentable_nil
  | some name => exact isRepresentable_single "className" trivial rfl

/-- An indented text becomes a pull quote, which is a leaf: its paragraph is part of its markup. -/
theorem shows_indented {table : TagTable} (ht : table.IsAlphanumeric)
    (htable : ∀ name, table.HasTag name → p name) (t : StyledText) :
    (indented table t).Shows p (Html.escapeChars t.text.toList) :=
  .leaf (by decide) Attributes.isRepresentable_nil
    (displays_enclose
      (.ofTags hp ["figure class=\"wp-block-pullquote\"", "blockquote", "p"] (by decide))
      (.ofTags hp ["/p", "/blockquote", "/figure"] (by decide))
      (displays_breakChars_styled ht htable t))

/-- A list item has its text escaped, and without the formatting. -/
theorem shows_listItem (t : StyledText) :
    (listItem t).Shows p (Html.escapeChars t.text.toList) :=
  .leaf (by decide) Attributes.isRepresentable_nil
    (displays_enclose (.ofTags hp ["li"] (by decide)) (.ofTags hp ["/li"] (by decide))
      (displays_escapeChars _))

/-- The tag of an element with an address for an attribute displays nothing, whatever the address
is. -/
theorem displays_element {lead trail : List Char} (hlead : IsTag lead) (hlength : 2 < lead.length)
    (htrail : '<' ∉ trail ∧ '>' ∉ trail) (url : List Char) :
    Displays p ('<' :: (lead ++ Html.escapeChars url ++ '"' :: trail) ++ ['>']) [] := by
  have hescape : ∀ c ∈ Html.escapeChars url, c ≠ '<' ∧ c ≠ '>' := by
    intro c hc
    have := Html.not_mem_escapeChars url c hc
    simp only [List.mem_cons, not_or] at this
    exact ⟨this.1, this.2.1⟩
  have htag : IsTag (lead ++ Html.escapeChars url ++ '"' :: trail) := by
    obtain ⟨hlt, hgt, hbang⟩ := hlead
    refine ⟨?_, ?_, ?_⟩
    · simp only [List.mem_append, List.mem_cons, not_or]
      exact ⟨⟨hlt, fun h ↦ (hescape _ h).1 rfl⟩, by decide, htrail.1⟩
    · simp only [List.mem_append, List.mem_cons, not_or]
      exact ⟨⟨hgt, fun h ↦ (hescape _ h).2 rfl⟩, by decide, htrail.2⟩
    · cases lead with
      | nil => cases hlength
      | cons c lead => exact hbang
  -- the tag is too long for a break
  have hbreak : lead ++ Html.escapeChars url ++ '"' :: trail ≠ ['b', 'r'] := by
    intro h
    have := congrArg List.length h
    simp only [List.length_append, List.length_cons, List.length_nil] at this
    omega
  exact .tag (hp _ htag hbreak) .nil

/-- An image displays nothing, whatever its address and its sizes. -/
theorem shows_imageOf (url : String) {width height : Option Nat}
    (hwidth : ∀ n ∈ width, Json.Number.IsWord n) (hheight : ∀ n ∈ height, Json.Number.IsWord n) :
    (imageOf url width height).Shows p [] := by
  have hsizes : ∀ c : Char, c ∉ " width=\"".toList → c ∉ " height=\"".toList → c.isDigit = false →
      c ∉ sizeChars "width" width ++ sizeChars "height" height := by
    intro c hw hh hc
    rw [List.mem_append, not_or]
    exact ⟨not_mem_sizeChars width hw hc, not_mem_sizeChars height hh hc⟩
  have htag : IsTag "img src=\"".toList := by decide
  have helement := displays_element hp htag (by decide)
    ⟨hsizes '<' (by decide) (by decide) (by decide),
      hsizes '>' (by decide) (by decide) (by decide)⟩ url.toList
  have hopening : Displays p "<figure class=\"wp-block-image\">".toList [] :=
    .ofTags hp ["figure class=\"wp-block-image\""] (by decide)
  have hclosing : Displays p "</figure>".toList [] := .ofTags hp ["/figure"] (by decide)
  refine .leaf (by decide) (isRepresentable_image url hwidth hheight) ?_
  simpa [enclose] using hopening.between hclosing helement

theorem shows_audioOf (src : String) : (audioOf src).Shows p [] := by
  have htag : IsTag "audio controls src=\"".toList := by decide
  have helement := displays_element hp htag (by decide) ⟨List.not_mem_nil, List.not_mem_nil⟩
    src.toList
  have hopening : Displays p "<figure class=\"wp-block-audio\">".toList [] :=
    .ofTags hp ["figure class=\"wp-block-audio\""] (by decide)
  have hclosing : Displays p "</audio></figure>".toList [] :=
    .ofTags hp ["/audio", "/figure"] (by decide)
  refine .leaf (by decide) (isRepresentable_single "src" trivial rfl) ?_
  simpa [enclose] using hopening.between hclosing helement

end

end Block

/-! ### Posts -/

/-- What source blocks are built into, each of them apart from the others. -/
theorem SourceBlock.forall₂_buildAll {table : TagTable} {index : Nat} {ss : List SourceBlock}
    {builts : List Built} (h : buildAll table index ss = .ok builts) :
    List.Forall₂ (fun s built ↦ ∃ i, s.build table i = .ok built) ss builts := by
  induction ss generalizing index builts with
  | nil =>
    cases h
    exact .nil
  | cons s ss ih =>
    rw [buildAll, Except.bind_eq_ok_iff] at h
    obtain ⟨built, hbuild, h⟩ := h
    obtain ⟨rest, hrest, h⟩ := Except.bind_eq_ok_iff.1 h
    cases h
    exact .cons ⟨index, hbuild⟩ (ih hrest)

section

variable {p : List Char → Prop} (hp : AllowsTags p) {table : TagTable}
  (ht : table.IsAlphanumeric) (htable : ∀ name, table.HasTag name → p name)
include hp ht htable

/-- What a source block is built into shows its text. -/
theorem SourceBlock.shows_build {index : Nat} {s : SourceBlock} {built : Built}
    (hs : s.HasWordSizes) (h : s.build table index = .ok built) :
    built.Shows p (Html.escapeChars s.textChars) := by
  cases s with
  | paragraph t | fallback _ t =>
    cases h
    exact Block.shows_paragraphOf hp
      ((displays_renderInlineChars table t.text.toList t.formatting).imp htable)
  | heading1 t =>
    cases h
    exact Block.shows_heading hp htable (.inl rfl) t
  | heading2 t =>
    cases h
    exact Block.shows_heading hp htable (.inr rfl) t
  | quote t | chat t =>
    cases h
    exact Block.shows_quoteOf hp _ (Block.displays_breakChars_styled ht htable t)
  | quirky t =>
    cases h
    exact Block.shows_quoteOf hp _ (Block.displays_breakChars_escapeChars t.text.toList)
  | indented t =>
    cases h
    exact Block.shows_indented hp ht htable t
  | listItem kind t =>
    cases h
    exact Block.shows_listItem hp t
  | image media =>
    match media, h with
    | ⟨some url, width, height⟩ :: media, h =>
      cases h
      obtain ⟨hwidth, hheight⟩ := hs _ List.mem_cons_self
      exact Block.shows_imageOf hp url hwidth hheight
  | audio media url =>
    rw [build, Block.audio] at h
    split at h
    · cases h
      exact Block.shows_audioOf hp _
    · cases h

/-- Source blocks are built apart from each other, so each of them shows its own text. -/
theorem SourceBlock.shows_buildAll {index : Nat} {ss : List SourceBlock} {builts : List Built}
    (hs : ∀ s ∈ ss, s.HasWordSizes) (h : buildAll table index ss = .ok builts) :
    List.Forall₂ (Built.Shows p) builts (ss.map fun s ↦ Html.escapeChars s.textChars) := by
  have hall := forall₂_buildAll h
  clear h
  induction hall with
  | nil => exact .nil
  | cons hbuild _ ih =>
    obtain ⟨i, hbuild⟩ := hbuild
    obtain ⟨hs, hss⟩ := List.forall_mem_cons.1 hs
    exact .cons (shows_build hp ht htable hs hbuild) (ih hss)

/-- The tree of a post shows the texts of its blocks in order. -/
theorem Block.showsEach_ofSource {ss : List SourceBlock} {bs : List Block}
    (hs : ∀ s ∈ ss, s.HasWordSizes) (h : ofSource table ss = .ok bs) :
    ShowsEach p bs (Html.escapeChars (ss.flatMap SourceBlock.textChars)) := by
  obtain ⟨builts, hbuilts, rfl⟩ := Except.map_eq_ok_iff.1 h
  have hshows := Listing.showsEach_group hp (SourceBlock.shows_buildAll hp ht htable hs hbuilts)
  have hescape : Html.escapeChars (ss.flatMap SourceBlock.textChars)
      = ss.flatMap fun s ↦ Html.escapeChars s.textChars := List.flatMap_assoc
  rwa [hescape, List.flatMap_def]

end

end PostBlocks
