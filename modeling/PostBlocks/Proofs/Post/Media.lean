import PostBlocks.Proofs.Html.Attribute
import PostBlocks.Proofs.Post.Convert

/-!
# Images and sounds say the same twice

The address of an image or a sound and the sizes of an image are written into its markup and held as
attributes of its block. An address is escaped in markup, so it has no quote there and is read back;
sizes are digits. So markup and attributes agree (`Block.agreesOn_imageOf`,
`Block.agreesOn_audioOf`), and since such a block reads back from its markup as it is, they agree in
what is read as well (`Block.agreesOn_media`).
-/

namespace PostBlocks

open Html (attributes quotedAfter?)

/-- The number that decimal digits write. -/
def Json.ofDecimal? (cs : List Char) : Option Nat :=
  if cs.isEmpty || !cs.all Char.isDigit then none
  else some (Numeral.ofDigits (cs.map digitValue))

theorem Json.ofDecimal?_decimalChars (n : Nat) : ofDecimal? (decimalChars n) = some n := by
  have hdigits : (decimalChars n).all Char.isDigit = true :=
    List.all_eq_true.2 fun _ ↦ isDigit_of_mem_decimalChars
  rw [ofDecimal?, if_neg (by simp [decimalChars_ne_nil, hdigits]), ofDigits_decimalChars]

namespace Block

/-- Digits in markup and a value of a block's attributes are one number. -/
def IsSameSize (digits : List Char) (v : Json) : Prop :=
  ∃ n : Nat, Json.ofDecimal? digits = some n ∧ v = .nat n

/-- The markup of a block and its attributes agree on an address, which is under a key of the
attributes, and on the sizes, of which there may be none. -/
structure AgreesOn (key url : String) (b : Block) : Prop where
  address : Json.Fields.get? key b.attrs = some (.string url)
  source : ∃ value, quotedAfter? "src=\"".toList b.html.toList = some value
    ∧ Html.unescape (.ofList value) = url
  sizes : ∀ name ∈ ["width", "height"],
    Option.Rel IsSameSize ((attributes b.html.toList).lookup name) (Json.Fields.get? name b.attrs)

/-! ### Addresses -/

/-- An escaped address does not end the quotes that it stands in. -/
theorem quote_not_mem_escapeChars (cs : List Char) : '"' ∉ Html.escapeChars cs := fun hmem ↦
  Html.not_mem_escapeChars cs _ hmem (by decide)

/-- An escaped address is found behind its name in markup and read back. -/
theorem exists_source {front : List Char} {html : String} (url : String) (rest : List Char)
    (hhtml : html.toList
      = front ++ "src=\"".toList ++ Html.escapeChars url.toList ++ '"' :: rest)
    (hfirst : ∀ n < front.length,
      ¬"src=\"".toList <+: (front ++ "src=\"".toList).drop n) :
    ∃ value, quotedAfter? "src=\"".toList html.toList = some value
      ∧ Html.unescape (.ofList value) = url := by
  refine ⟨Html.escapeChars url.toList, ?_, ?_⟩
  · rw [hhtml, Html.quotedAfter?_append hfirst (quote_not_mem_escapeChars _)]
  · rw [Html.unescape, String.toList_ofList, Html.unescapeChars_escapeChars, String.ofList_toList]

/-! ### Sizes -/

/-- A size is in both places or in neither, and the same in both. -/
theorem rel_isSameSize (size : Option Nat) :
    Option.Rel IsSameSize (size.map Json.decimalChars) (size.map Json.nat) := by
  cases size with
  | none => exact .none
  | some n => exact .some ⟨n, Json.ofDecimal?_decimalChars n, rfl⟩

/-- A size as an attribute of an element. -/
theorem attributes_sizeChars {name : String} (hquote : '"' ∉ name.toList)
    (hname : Html.attributeName (' ' :: name.toList ++ ['=']) = name) (size : Option Nat)
    (rest : List Char) : attributes (sizeChars name size ++ rest)
      = (size.map fun n ↦ (name, Json.decimalChars n)).toList ++ attributes rest := by
  cases size with
  | none => rfl
  | some n =>
    have hdigits : '"' ∉ Json.decimalChars n := fun hmem ↦
      absurd (Json.isDigit_of_mem_decimalChars hmem) (by decide)
    have hlead : '"' ∉ ' ' :: name.toList ++ ['='] := by simpa using hquote
    have hcut : sizeChars name (some n) ++ rest
        = (' ' :: name.toList ++ ['=']) ++ '"' :: (Json.decimalChars n ++ '"' :: rest) := by
      simp [sizeChars]
    rw [hcut, Html.attributes_append hlead hdigits, hname]
    rfl

/-! ### Builders -/

/-- The attributes of an element with an address, after the class of the figure around it. -/
theorem attributes_figure {lead name url : List Char} (hlead : '"' ∉ lead) (hname : '"' ∉ name)
    (rest : List Char) :
    attributes ("<figure class=".toList ++ '"' :: (name ++ '"' :: (lead
        ++ '"' :: (Html.escapeChars url ++ '"' :: rest))))
      = ("class", name) :: (Html.attributeName lead, Html.escapeChars url) :: attributes rest := by
  have hclass : Html.attributeName "<figure class=".toList = "class" := by decide
  rw [Html.attributes_append (by decide) hname, hclass,
    Html.attributes_append hlead (quote_not_mem_escapeChars url)]

/-- All attributes of an image's markup, those of the figure around it first. -/
theorem attributes_imageOf (url : String) (width height : Option Nat) :
    attributes (imageOf url width height).html.toList
      = ("class", "wp-block-image".toList) :: ("src", Html.escapeChars url.toList)
        :: ((width.map fun n ↦ ("width", Json.decimalChars n)).toList
          ++ (height.map fun n ↦ ("height", Json.decimalChars n)).toList) := by
  have hsrc : Html.attributeName "><img src=".toList = "src" := by decide
  have hcut : (imageOf url width height).html.toList
      = "<figure class=".toList ++ '"' :: ("wp-block-image".toList ++ '"' :: ("><img src=".toList
        ++ '"' :: (Html.escapeChars url.toList ++ '"' :: (sizeChars "width" width
          ++ (sizeChars "height" height ++ "></figure>".toList))))) := by
    simp [imageOf, leaf, enclose]
  rw [hcut, attributes_figure (by decide) (by decide), hsrc,
    attributes_sizeChars (by decide) (by decide), attributes_sizeChars (by decide) (by decide),
    Html.attributes_of_not_mem (by decide), List.append_nil]

theorem attributes_audioOf (src : String) : attributes (audioOf src).html.toList
    = [("class", "wp-block-audio".toList), ("src", Html.escapeChars src.toList)] := by
  have hsrc : Html.attributeName "><audio controls src=".toList = "src" := by decide
  have hcut : (audioOf src).html.toList
      = "<figure class=".toList ++ '"' :: ("wp-block-audio".toList
        ++ '"' :: ("><audio controls src=".toList
          ++ '"' :: (Html.escapeChars src.toList ++ '"' :: "></audio></figure>".toList))) := by
    simp [audioOf, leaf, enclose]
  rw [hcut, attributes_figure (by decide) (by decide), hsrc,
    Html.attributes_of_not_mem (by decide)]

/-- The markup of an image and the attributes of its block agree, whatever its address and sizes. -/
theorem agreesOn_imageOf (url : String) (width height : Option Nat) :
    (imageOf url width height).AgreesOn "url" url := by
  have hhtml : (imageOf url width height).html.toList
      = "<figure class=\"wp-block-image\"><img ".toList ++ "src=\"".toList
        ++ Html.escapeChars url.toList ++ '"' :: (sizeChars "width" width
          ++ sizeChars "height" height ++ "></figure>".toList) := by
    simp [imageOf, leaf, enclose]
  have hquoted : ∀ f ∈ [("width", width), ("height", height)],
      (attributes (imageOf url width height).html.toList).lookup f.1
        = f.2.map Json.decimalChars := by
    rw [attributes_imageOf, List.forall_mem_cons, List.forall_mem_singleton]
    cases width <;> cases height <;> exact ⟨rfl, rfl⟩
  have hfields : ∀ f ∈ [("width", width), ("height", height)],
      Json.Fields.get? f.1 (imageOf url width height).attrs = f.2.map Json.nat := by
    rw [List.forall_mem_cons, List.forall_mem_singleton]
    cases width <;> cases height <;> exact ⟨rfl, rfl⟩
  have hsizes : ∀ f ∈ [("width", width), ("height", height)], Option.Rel IsSameSize
      ((attributes (imageOf url width height).html.toList).lookup f.1)
      (Json.Fields.get? f.1 (imageOf url width height).attrs) := by
    intro f hf
    rw [hquoted f hf, hfields f hf]
    exact rel_isSameSize f.2
  exact ⟨rfl, exists_source url _ hhtml (by decide), by simpa using hsizes⟩

theorem agreesOn_audioOf (src : String) : (audioOf src).AgreesOn "src" src := by
  have hhtml : (audioOf src).html.toList
      = "<figure class=\"wp-block-audio\"><audio controls ".toList ++ "src=\"".toList
        ++ Html.escapeChars src.toList ++ '"' :: "></audio></figure>".toList := by
    simp [audioOf, leaf, enclose]
  refine ⟨rfl, exists_source src _ hhtml (by decide), ?_⟩
  rw [attributes_audioOf, List.forall_mem_cons, List.forall_mem_singleton]
  exact ⟨.none, .none⟩

/-- A block that is built by itself reads back from its markup. -/
theorem exists_parse_single {s : SourceBlock} {b : Block} (hs : s.HasWordSizes)
    (h : ofSource .standard [s] = .ok [b]) :
    ∃ m, documentMarkup [b] = .ok m ∧ parse m = .ok [b] :=
  (exists_parse_ofSource TagTable.isAlphanumeric_standard (List.forall_mem_singleton.2 hs) h).2

/-- The markup of images and sounds agrees with their attributes, both as they are built and as they
are read from their markup: on the address, whatever it is, and on the sizes. -/
theorem agreesOn_media :
    (∀ index media b, (∀ m ∈ media, m.HasWordSizes) → image index media = .ok b →
      ∃ url, firstUrl? media = some url ∧ b.AgreesOn "url" url
        ∧ ∃ m b', documentMarkup [b] = .ok m ∧ parse m = .ok [b'] ∧ b'.AgreesOn "url" url)
    ∧ ∀ index media url? b, audio index media url? = .ok b →
      ∃ src, (firstUrl? media).or url? = some src ∧ b.AgreesOn "src" src
        ∧ ∃ m b', documentMarkup [b] = .ok m ∧ parse m = .ok [b'] ∧ b'.AgreesOn "src" src := by
  constructor
  · intro index media b hs h
    match media, hs, h with
    | ⟨some url, width, height⟩ :: media, hs, h =>
      cases h
      obtain ⟨m, hwrite, hparse⟩ := exists_parse_single
        (s := .image (⟨some url, width, height⟩ :: media)) hs rfl
      have hagrees := agreesOn_imageOf url width height
      exact ⟨url, rfl, hagrees, m, _, hwrite, hparse, hagrees⟩
  · intro index media url? b h
    rw [audio] at h
    split at h
    · next src hsrc =>
      cases h
      have hempty : ∀ m ∈ ([] : List Media), m.HasWordSizes := List.forall_mem_nil _
      obtain ⟨m, hwrite, hparse⟩ := exists_parse_single (s := .audio [] (some src)) hempty rfl
      have hagrees := agreesOn_audioOf src
      exact ⟨src, hsrc, hagrees, m, _, hwrite, hparse, hagrees⟩
    · cases h

/-- An address that seems to end its attribute, to carry another one and to end a comment. -/
theorem agreesOn_media_quote : ∃ b m b',
    image 0 [⟨some "x?width=\"--&quot;>", some 18446744073709551615, none⟩] = .ok b
      ∧ b.AgreesOn "url" "x?width=\"--&quot;>"
      ∧ documentMarkup [b] = .ok m ∧ parse m = .ok [b']
      ∧ b'.AgreesOn "url" "x?width=\"--&quot;>" := by
  have hsizes : ∀ m ∈ [⟨some "x?width=\"--&quot;>", some 18446744073709551615, none⟩],
      Media.HasWordSizes m := by
    simp [Media.HasWordSizes, Json.Number.IsWord]
  obtain ⟨url, hurl, hagrees, m, b', hwrite, hparse, hread⟩ := agreesOn_media.1 0 _ _ hsizes rfl
  cases hurl
  exact ⟨_, m, b', rfl, hagrees, hwrite, hparse, hread⟩

end Block

end PostBlocks
