import Mathlib.Order.Nat
import PostBlocks.Proofs.Block.Imbalance
import PostBlocks.Proofs.Block.Listing
import PostBlocks.Proofs.Post.Decode

/-!
# Which posts fail

A content block can lack one field that its type needs, and nothing else in it makes a conversion
fail (`RawBlock.Lacks`). Texts are missed when the blocks are sorted, addresses of media only when
all of them have been sorted and are built. So a post whose fields can be read fails for the first
of its blocks without a text, wherever others without an address stand; else for the first without
an address; and else it has markup (`Post.valueMarkup_outcome`). What is built is balanced whatever
the tags are (`Block.areBalanced_ofSource`), so the last step never fails.
-/

namespace PostBlocks

/-! ### What a block lacks -/

/-- The first media descriptor of a block is absent or has no address. -/
def RawBlock.LacksMediaUrl (b : RawBlock) : Prop :=
  ∀ m ∈ (b.media.getD []).head?, m.url = none

/-- A block is of the type that needs a field, and lacks the field. -/
def RawBlock.Lacks (b : RawBlock) (field : RequiredField) : Prop :=
  b.kind = some field.block ∧ match field with
    | .text => b.text = none
    | .imageUrl => b.LacksMediaUrl
    | .audioUrl => b.LacksMediaUrl ∧ b.url = none

/-- A block lacks an address that its image or its sound needs. -/
def RawBlock.LacksUrl (b : RawBlock) : Prop :=
  b.Lacks .imageUrl ∨ b.Lacks .audioUrl

/-- The condition is the one that the builders look at. -/
theorem RawBlock.lacksMediaUrl_iff {b : RawBlock} :
    b.LacksMediaUrl ↔ Block.firstUrl? (b.media.getD []) = none := by
  rw [Block.firstUrl?, Option.bind_eq_none_iff]
  rfl

/-! ### Sorting -/

namespace RawBlock

variable {b : RawBlock}

/-- Sorting misses a text at once. -/
theorem classify_of_lacks (h : b.Lacks .text) (index : Nat) :
    b.classify index = .error (.missing index .text) := by
  obtain ⟨hkind, htext⟩ := h
  have htext : b.text = none := htext
  simp only [classify, hkind, Option.getD_some, RequiredField.block, htext]

/-- A type that is not empty is there, and not by default. -/
theorem kind_eq_some {kind : String} (h : b.kind.getD "" = kind) (hne : kind ≠ "") :
    b.kind = some kind := by
  rw [Option.getD_eq_iff] at h
  exact h.resolve_right fun hdefault ↦ hne hdefault.2.symm

/-- A text is all that sorting can miss; media are looked at later. -/
theorem exists_classify_of_not_lacks (h : ¬b.Lacks .text) (index : Nat) :
    ∃ s, b.classify index = .ok s := by
  unfold classify
  split
  · next hkind =>
    split
    · next htext => exact absurd ⟨kind_eq_some hkind (by decide), htext⟩ h
    · exact ⟨_, rfl⟩
  all_goals exact ⟨_, rfl⟩

end RawBlock

/-! ### Building -/

namespace Block

/-- An image needs the address of its first descriptor; later ones do not count. -/
theorem image_of_firstUrl? {media : List Media} (h : firstUrl? media = none) (index : Nat) :
    image index media = .error (.missing index .imageUrl) := by
  match media, h with
  | [], _ => rfl
  | ⟨none, _, _⟩ :: _, _ => rfl

theorem exists_image {media : List Media} (h : firstUrl? media ≠ none) (index : Nat) :
    ∃ b, image index media = .ok b := by
  match media, h with
  | [], h => exact absurd rfl h
  | ⟨none, _, _⟩ :: _, h => exact absurd rfl h
  | ⟨some url, width, height⟩ :: _, _ => exact ⟨_, rfl⟩

/-- A sound without an address in its first descriptor needs one of its own. -/
theorem audio_of_firstUrl? {media : List Media} (h : firstUrl? media = none) (index : Nat) :
    audio index media none = .error (.missing index .audioUrl) := by
  rw [audio, h]
  rfl

theorem exists_audio {media : List Media} {url : Option String}
    (h : ¬(firstUrl? media = none ∧ url = none)) (index : Nat) :
    ∃ b, audio index media url = .ok b := by
  unfold audio
  split
  · exact ⟨_, rfl⟩
  · next hnone => exact absurd (Option.or_eq_none_iff.1 hnone) h

end Block

/-- A text of any subtype is built. -/
theorem SourceBlock.exists_build_ofSubtype (table : TagTable) (index : Nat)
    (subtype : Option String) (t : StyledText) :
    ∃ built, (ofSubtype subtype t).build table index = .ok built := by
  unfold ofSubtype
  split <;> exact ⟨_, rfl⟩

namespace RawBlock

variable {b : RawBlock} {index : Nat} {s : SourceBlock}

/-- A sorted block that lacks a field is not built, for want of the field. -/
theorem build_of_lacks {field : RequiredField} (hb : b.Lacks field)
    (h : b.classify index = .ok s) (table : TagTable) :
    s.build table index = .error (.missing index field) := by
  obtain ⟨hkind, hlacks⟩ := hb
  simp only [classify, hkind, Option.getD_some] at h
  match field, hlacks with
  | .text, htext =>
    have htext : b.text = none := htext
    simp [RequiredField.block, htext] at h
  | .imageUrl, hmedia =>
    obtain rfl := Except.ok.inj h
    rw [SourceBlock.build, Block.image_of_firstUrl? (lacksMediaUrl_iff.1 hmedia)]
    rfl
  | .audioUrl, ⟨hmedia, hurl⟩ =>
    obtain rfl := Except.ok.inj h
    rw [SourceBlock.build, hurl, Block.audio_of_firstUrl? (lacksMediaUrl_iff.1 hmedia)]
    rfl

/-- A sorted block is built if it lacks no address. -/
theorem exists_build_of_not_lacks (hb : ¬b.LacksUrl) (h : b.classify index = .ok s)
    (table : TagTable) : ∃ built, s.build table index = .ok built := by
  unfold classify at h
  split at h
  · split at h
    · cases h
    · obtain rfl := Except.ok.inj h
      exact SourceBlock.exists_build_ofSubtype table index _ _
  · next hkind =>
    obtain rfl := Except.ok.inj h
    have hurl : Block.firstUrl? (b.media.getD []) ≠ none := fun hnone ↦
      hb (.inl ⟨kind_eq_some hkind (by decide), lacksMediaUrl_iff.2 hnone⟩)
    obtain ⟨image, himage⟩ := Block.exists_image hurl index
    exact ⟨.block image, by rw [SourceBlock.build, himage]; rfl⟩
  · next hkind =>
    obtain rfl := Except.ok.inj h
    have hurl : ¬(Block.firstUrl? (b.media.getD []) = none ∧ b.url = none) := fun hnone ↦
      hb (.inr ⟨kind_eq_some hkind (by decide), lacksMediaUrl_iff.2 hnone.1, hnone.2⟩)
    obtain ⟨audio, haudio⟩ := Block.exists_audio hurl index
    exact ⟨.block audio, by rw [SourceBlock.build, haudio]; rfl⟩
  · obtain rfl := Except.ok.inj h
    exact ⟨_, rfl⟩

end RawBlock

/-! ### What is built is balanced -/

namespace Block

theorem isBalanced_leaf (name : String) (attrs : Json.Fields) (html : String) :
    (leaf name attrs html).isBalanced = true := by
  unfold leaf
  split <;> rfl

theorem isBalanced_container (name : String) (attrs : Json.Fields) (opening : String)
    {children : List Block} (h : areBalanced children = true) (closing : String) :
    (container name attrs opening children closing).isBalanced = true := by
  rw [container, isBalanced, countPlaceholders_container, h, beq_self_eq_true, Bool.and_self]

theorem isBalanced_quoteOf (className : Option String) (html : List Char) :
    (quoteOf className html).isBalanced = true :=
  isBalanced_container _ _ _
    (areBalanced_iff.2 (List.forall_mem_singleton.2 (isBalanced_leaf ..))) _

theorem isBalanced_list (kind : ListKind) {items : List Block} (h : areBalanced items = true) :
    (list kind items).isBalanced = true := by
  match kind with
  | .unordered => exact isBalanced_container _ _ _ h _
  | .ordered => exact isBalanced_container _ _ _ h _

end Block

/-- A built block or item is balanced. -/
def Built.IsBalanced : Built → Prop
  | .block b | .item _ b => b.isBalanced = true

/-- Whatever is built is balanced. -/
theorem SourceBlock.isBalanced_build {table : TagTable} {index : Nat} {s : SourceBlock}
    {built : Built} (h : s.build table index = .ok built) : built.IsBalanced := by
  match s, h with
  | .paragraph _, h | .heading1 _, h | .heading2 _, h | .indented _, h | .listItem _ _, h
  | .fallback _ _, h =>
    obtain rfl := Except.ok.inj h
    exact Block.isBalanced_leaf ..
  | .quote _, h | .chat _, h | .quirky _, h =>
    obtain rfl := Except.ok.inj h
    exact Block.isBalanced_quoteOf ..
  | .image (⟨some url, width, height⟩ :: _), h =>
    obtain rfl := Except.ok.inj h
    exact Block.isBalanced_leaf ..
  | .audio media url, h =>
    rw [build, Block.audio] at h
    split at h
    · obtain rfl := Except.ok.inj h
      exact Block.isBalanced_leaf ..
    · cases h

/-- Grouping keeps blocks balanced. -/
theorem Listing.areBalanced_group {builts : List Built} (h : ∀ built ∈ builts, built.IsBalanced) :
    Block.areBalanced (Block.group builts) = true := by
  obtain ⟨runs, hgroups, rfl⟩ := Listing.exists_groups builts
  rw [Block.group, hgroups.finish_eq, Block.areBalanced_iff]
  intro b hb
  obtain ⟨r, hr, rfl⟩ := List.mem_map.1 hb
  have hmembers : ∀ built ∈ r.members, built.IsBalanced := fun built hbuilt ↦
    h built (List.mem_flatMap.2 ⟨r, hr, hbuilt⟩)
  cases r with
  | block b => exact hmembers _ (List.mem_singleton.2 rfl)
  | items kind bs _ =>
    refine Block.isBalanced_list kind (Block.areBalanced_iff.2 fun b hb ↦ ?_)
    exact hmembers _ (List.mem_map.2 ⟨b, hb, rfl⟩)

/-! ### Posts -/

/-- A property that holds of a member holds first of the one at some index. -/
theorem exists_isLeast_getElem? {α : Type} {as : List α} {P : α → Prop} (h : ∃ a ∈ as, P a) :
    ∃ i, IsLeast {j : Nat | ∃ a, as[j]? = some a ∧ P a} i := by
  classical
  obtain ⟨a, ha, hP⟩ := h
  obtain ⟨i, hi⟩ := List.mem_iff_getElem?.1 ha
  exact ⟨_, Nat.isLeast_find (p := fun j ↦ ∃ a, as[j]? = some a ∧ P a) ⟨i, a, hi, hP⟩⟩

theorem RawBlock.classifyAll_cons (index : Nat) (b : RawBlock) (bs : List RawBlock) :
    classifyAll index (b :: bs) =
      do return (← b.classify index) :: (← classifyAll (index + 1) bs) :=
  rfl

theorem SourceBlock.buildAll_cons (table : TagTable) (index : Nat) (s : SourceBlock)
    (ss : List SourceBlock) : buildAll table index (s :: ss) =
      do return (← s.build table index) :: (← buildAll table (index + 1) ss) :=
  rfl

/-- The tree of any source blocks is balanced. -/
theorem Block.areBalanced_ofSource {table : TagTable} {ss : List SourceBlock} {bs : List Block}
    (h : ofSource table ss = .ok bs) : areBalanced bs = true := by
  obtain ⟨builts, hbuilts, rfl⟩ := Except.map_eq_ok_iff.1 h
  refine Listing.areBalanced_group fun built hbuilt ↦ ?_
  obtain ⟨j, hj⟩ := List.mem_iff_getElem?.1 hbuilt
  have hstep :=
    Except.step_of_pass_eq_ok (SourceBlock.buildAll_cons table) (fun _ ↦ rfl) hbuilts j
  rw [hj, Option.map_some, Option.map_eq_some_iff] at hstep
  obtain ⟨s, -, hs⟩ := hstep
  exact SourceBlock.isBalanced_build hs

section

variable {bs : List RawBlock}

/-- Sorting fails for the first block that lacks a text. -/
theorem RawBlock.classifyAll_of_lacks {i : Nat}
    (h : IsLeast {j | ∃ b, bs[j]? = some b ∧ b.Lacks .text} i) :
    classifyAll 0 bs = .error (.missing i .text) := by
  obtain ⟨⟨b, hb, hlacks⟩, hleast⟩ := h
  refine Except.pass_eq_error classifyAll_cons hb ?_ fun k hk c hc ↦ ?_
  · exact classify_of_lacks hlacks _ |>.trans (by rw [Nat.zero_add])
  · refine exists_classify_of_not_lacks (fun hc' ↦ ?_) _
    exact absurd (hleast ⟨c, hc, hc'⟩) (by omega)

/-- Sorting succeeds if no block lacks a text. -/
theorem RawBlock.exists_classifyAll (h : ∀ b ∈ bs, ¬b.Lacks .text) :
    ∃ ss, classifyAll 0 bs = .ok ss :=
  Except.exists_pass_eq_ok classifyAll_cons (fun _ ↦ rfl) fun _ b hb ↦
    exists_classify_of_not_lacks (h b (List.mem_of_getElem? hb)) _

section

variable {ss : List SourceBlock} (hsort : RawBlock.classifyAll 0 bs = .ok ss)
include hsort

/-- Sorting leaves each block at its index. -/
theorem RawBlock.classify_getElem? (j : Nat) : bs[j]?.map (classify j) = ss[j]?.map .ok := by
  rw [← Except.step_of_pass_eq_ok classifyAll_cons (fun _ ↦ rfl) hsort j, Nat.zero_add]

/-- A sorted block is built if the block it comes from lacks no address. -/
theorem SourceBlock.exists_build_getElem? {j : Nat} {s : SourceBlock} (hs : ss[j]? = some s)
    (h : ∀ b, bs[j]? = some b → ¬b.LacksUrl) (table : TagTable) :
    ∃ built, s.build table j = .ok built := by
  have hclassify := RawBlock.classify_getElem? hsort j
  rw [hs, Option.map_some, Option.map_eq_some_iff] at hclassify
  obtain ⟨b, hb, hclassify⟩ := hclassify
  exact RawBlock.exists_build_of_not_lacks (h b hb) hclassify table

/-- Building fails for the first block that lacks an address. -/
theorem SourceBlock.buildAll_of_lacks {i : Nat} {b : RawBlock} {field : RequiredField}
    (h : IsLeast {j | ∃ b, bs[j]? = some b ∧ b.LacksUrl} i) (hb : bs[i]? = some b)
    (hlacks : b.Lacks field) (table : TagTable) :
    buildAll table 0 ss = .error (.missing i field) := by
  have hclassify := RawBlock.classify_getElem? hsort i
  rw [hb, Option.map_some, eq_comm, Option.map_eq_some_iff] at hclassify
  obtain ⟨s, hs, hclassify⟩ := hclassify
  refine Except.pass_eq_error (buildAll_cons table) hs ?_ fun k hk c hc ↦ ?_
  · rw [Nat.zero_add]
    exact RawBlock.build_of_lacks hlacks hclassify.symm table
  · rw [Nat.zero_add]
    refine exists_build_getElem? hsort hc (fun b hb hb' ↦ ?_) table
    exact absurd (h.2 ⟨b, hb, hb'⟩) (by omega)

/-- Building succeeds if no block lacks an address. -/
theorem SourceBlock.exists_buildAll (h : ∀ b ∈ bs, ¬b.LacksUrl) (table : TagTable) :
    ∃ builts, buildAll table 0 ss = .ok builts := by
  refine Except.exists_pass_eq_ok (buildAll_cons table) (fun _ ↦ rfl) fun j s hs ↦ ?_
  rw [Nat.zero_add]
  exact exists_build_getElem? hsort hs (fun b hb ↦ h b (List.mem_of_getElem? hb)) table

end

/-- A block that lacks an address lacks the field of an image or of a sound. -/
theorem RawBlock.LacksUrl.exists_lacks {b : RawBlock} (h : b.LacksUrl) :
    ∃ field, field ≠ .text ∧ b.Lacks field := by
  rcases h with h | h
  · exact ⟨.imageUrl, nofun, h⟩
  · exact ⟨.audioUrl, nofun, h⟩

/-- Source blocks that are not built have no markup. -/
theorem Post.sourceMarkup_eq_error {table : TagTable} {ss : List SourceBlock} {e : ConvertError}
    (h : SourceBlock.buildAll table 0 ss = .error e) : sourceMarkup table ss = .error e := by
  rw [sourceMarkup, Block.ofSource, h]
  rfl

/-- Source blocks that are built have markup, since their tree is balanced. -/
theorem Post.exists_sourceMarkup {table : TagTable} {ss : List SourceBlock} {builts : List Built}
    (h : SourceBlock.buildAll table 0 ss = .ok builts) :
    ∃ markup, sourceMarkup table ss = .ok markup := by
  have hsource : Block.ofSource table ss = .ok (Block.group builts) :=
    Except.map_eq_ok_iff.2 ⟨builts, h, rfl⟩
  obtain ⟨markup, hmarkup⟩ :=
    Block.exists_documentMarkup_eq_ok_iff.2 (Block.areBalanced_ofSource hsource)
  refine ⟨markup, ?_⟩
  rw [sourceMarkup, hsource]
  show (Block.documentMarkup (Block.group builts)).mapError _ = _
  rw [hmarkup]
  rfl

/-- The markup of a post whose fields can be read: all blocks are sorted before the first is built.
-/
theorem Post.valueMarkup_eq {post : Json} (h : rawBlocks? post.toNode = some bs)
    (table : TagTable) :
    valueMarkup table post = RawBlock.classifyAll 0 bs >>= sourceMarkup table := by
  rw [valueMarkup, decodeValue, decodeNode, Option.bind_some, h]

/-- A post whose fields can be read fails for its first text block without a text, if there is one;
else for the first image or sound without an address, if there is one; and else it has markup. An
index is that of the block in the post. -/
theorem Post.valueMarkup_outcome {post : Json} (h : rawBlocks? post.toNode = some bs)
    (table : TagTable) :
    ((∃ b ∈ bs, b.Lacks .text) → ∃ i, IsLeast {j | ∃ b, bs[j]? = some b ∧ b.Lacks .text} i
      ∧ valueMarkup table post = .error (.missing i .text))
    ∧ ((∀ b ∈ bs, ¬b.Lacks .text) → (∃ b ∈ bs, b.LacksUrl) →
      ∃ i b field, IsLeast {j | ∃ b, bs[j]? = some b ∧ b.LacksUrl} i ∧ bs[i]? = some b
        ∧ field ≠ .text ∧ b.Lacks field
        ∧ valueMarkup table post = .error (.missing i field))
    ∧ ((∀ b ∈ bs, ∀ field, ¬b.Lacks field) → ∃ markup, valueMarkup table post = .ok markup) := by
  rw [valueMarkup_eq h]
  refine ⟨fun htext ↦ ?_, fun htext hurl ↦ ?_, fun hnone ↦ ?_⟩
  · obtain ⟨i, hi⟩ := exists_isLeast_getElem? htext
    refine ⟨i, hi, ?_⟩
    -- a text is missed while blocks are sorted, and nothing is built
    rw [RawBlock.classifyAll_of_lacks hi]
    rfl
  · obtain ⟨i, hi⟩ := exists_isLeast_getElem? hurl
    obtain ⟨b, hb, hlacks⟩ := hi.1
    obtain ⟨field, hfield, hlacks⟩ := hlacks.exists_lacks
    obtain ⟨ss, hsort⟩ := RawBlock.exists_classifyAll htext
    refine ⟨i, b, field, hi, hb, hfield, hlacks, ?_⟩
    rw [hsort]
    exact sourceMarkup_eq_error (SourceBlock.buildAll_of_lacks hsort hi hb hlacks table)
  · obtain ⟨ss, hsort⟩ := RawBlock.exists_classifyAll fun b hb ↦ hnone b hb .text
    obtain ⟨builts, hbuilts⟩ := SourceBlock.exists_buildAll hsort
      (fun b hb hurl ↦ hurl.elim (hnone b hb .imageUrl) (hnone b hb .audioUrl)) table
    rw [hsort]
    exact exists_sourceMarkup hbuilts

/-- The image in front has no address, and still it is the text behind it that is missed. -/
theorem Post.valueMarkup_outcome_late_text : valueMarkup .standard (.object [("content", .array
      [.object [("type", .string "image")], .object [("type", .string "text")]])])
    = .error (.missing 1 .text) := by
  have hbs : rawBlocks? (Json.toNode (.object [("content", .array
        [.object [("type", .string "image")], .object [("type", .string "text")]])]))
      = some [⟨some "image", none, none, none, none, none, none⟩,
        ⟨some "text", none, none, none, none, none, none⟩] := rfl
  obtain ⟨i, ⟨⟨b, hb, hlacks⟩, -⟩, h⟩ := (valueMarkup_outcome hbs .standard).1
    ⟨_, List.mem_cons_of_mem _ List.mem_cons_self, rfl, rfl⟩
  match i, hb with
  | 0, hb =>
    obtain rfl := Option.some.inj hb
    exact absurd hlacks.1 (by decide)
  | 1, _ => exact h

end

end PostBlocks
