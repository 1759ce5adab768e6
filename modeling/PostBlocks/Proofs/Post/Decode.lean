import PostBlocks.Post.Convert
import PostBlocks.Proofs.Except

/-!
# What decoding and building can give

A size of an image or a sound file is read as a number of a 64-bit word or not at all. So the media
of every source block that is decoded have such sizes (`Post.hasWordSizes_of_decodeNode`).

A post that cannot be decoded or built is malformed or lacks a field (`Post.error_of_decodeNode`,
`Block.error_of_ofSource`); neither step says anything about balance.

Both are facts about a pipeline, and both go through it stage by stage: the reader of one field, of
a descriptor, of a list of them, of a block, of all blocks. What a reader gives is carried through
the readers that are made of it (`forall_mem_of_optional?`, `forall_mem_of_listOf?`), so no stage
looks into the one before. The errors name their blocks by index, and here it does not matter which
index it is.
-/

namespace PostBlocks

open Json (Node)

/-- The sizes of a file are numbers of a 64-bit word. -/
def Media.HasWordSizes (m : Media) : Prop :=
  (∀ n ∈ m.width, Json.Number.IsWord n) ∧ ∀ n ∈ m.height, Json.Number.IsWord n

/-- The files of an image or a sound have such sizes. -/
def SourceBlock.HasWordSizes : SourceBlock → Prop
  | image media | audio media _ => ∀ m ∈ media, m.HasWordSizes
  | _ => True

/-! ### Readers -/

section

variable {α : Type} {P : α → Prop} {read : Node → Option α}
  (hread : ∀ v a, read v = some a → P a)
include hread

/-- What a reader gives for a value, it gives for a field that may be missing. -/
theorem forall_mem_of_optional? {v : Option Node} {a : Option α}
    (h : Node.optional? read v = some a) : ∀ b ∈ a, P b := by
  unfold Node.optional? at h
  split at h
  · cases h
    exact fun _ hb ↦ nomatch hb
  · cases h
    exact fun _ hb ↦ nomatch hb
  · obtain ⟨b, hb, rfl⟩ := Option.map_eq_some_iff.1 h
    rintro _ ⟨⟩
    exact hread _ b hb

/-- What a reader gives for a value, it gives for each item of an array. -/
theorem forall_mem_of_listOf? {v : Node} {as : List α} (h : Node.listOf? read v = some as) :
    ∀ a ∈ as, P a := by
  unfold Node.listOf? at h
  split at h
  · next items =>
    induction items generalizing as with
    | nil =>
      cases h
      exact fun _ ha ↦ nomatch ha
    | cons item items ih =>
      simp only [List.mapM_cons, Option.bind_eq_bind, Option.bind_eq_some_iff, pure,
        Option.some.injEq] at h
      obtain ⟨a, ha, rest, hrest, rfl⟩ := h
      exact List.forall_mem_cons.2 ⟨hread item a ha, ih hrest⟩
  · cases h

end

theorem isWord_of_unsigned? {v : Node} {n : Nat} (h : v.unsigned? = some n) :
    Json.Number.IsWord n := by
  unfold Node.unsigned? at h
  split at h
  · next m =>
    cases m with
    | double bits => cases h
    | int i =>
      rw [Json.Number.unsigned?, Option.ite_none_right_eq_some, Option.some.injEq] at h
      rw [Json.Number.IsWord]
      omega
  · cases h

/-! ### Source blocks -/

theorem Media.hasWordSizes_of_ofNode? {v : Node} {m : Media} (h : Media.ofNode? v = some m) :
    m.HasWordSizes := by
  simp only [Media.ofNode?, Option.bind_eq_bind, Option.bind_eq_some_iff] at h
  obtain ⟨fields, -, h⟩ := h
  split at h
  · simp only [Option.bind_eq_some_iff, pure, Option.some.injEq] at h
    obtain ⟨url, -, width, hwidth, height, hheight, rfl⟩ := h
    exact ⟨forall_mem_of_optional? (fun _ _ ↦ isWord_of_unsigned?) hwidth,
      forall_mem_of_optional? (fun _ _ ↦ isWord_of_unsigned?) hheight⟩
  · cases h

/-- Media come as a list, or as one descriptor by itself. -/
theorem Media.hasWordSizes_of_listOfNode? {v : Node} {media : List Media}
    (h : Media.listOfNode? v = some media) : ∀ m ∈ media, m.HasWordSizes := by
  rw [Media.listOfNode?, Option.ite_none_right_eq_some, Option.or_eq_some_iff] at h
  rcases h.2 with h | ⟨-, h⟩
  · exact forall_mem_of_listOf? (fun _ _ ↦ Media.hasWordSizes_of_ofNode?) h
  · obtain ⟨m, hm, rfl⟩ := Option.map_eq_some_iff.1 h
    exact List.forall_mem_singleton.2 (Media.hasWordSizes_of_ofNode? hm)

/-- The media of a raw block, if it has any, have sizes of a word. -/
def RawBlock.HasWordSizes (b : RawBlock) : Prop :=
  ∀ media ∈ b.media, ∀ m ∈ media, m.HasWordSizes

/-- Media are the only field of a raw block in which sizes are read. -/
theorem RawBlock.hasWordSizes_of_ofNode? {v : Node} {b : RawBlock}
    (h : RawBlock.ofNode? v = some b) : b.HasWordSizes := by
  simp only [RawBlock.ofNode?, Option.bind_eq_bind, Option.bind_eq_some_iff] at h
  obtain ⟨fields, -, h⟩ := h
  split at h
  · simp only [Option.bind_eq_some_iff, pure, Option.some.injEq] at h
    obtain ⟨_, -, _, -, _, -, _, -, _, -, media, hmedia, _, -, rfl⟩ := h
    exact forall_mem_of_optional? (fun _ _ ↦ Media.hasWordSizes_of_listOfNode?) hmedia
  · cases h

/-- Sorting a block keeps its media as they are, or drops them. -/
theorem RawBlock.hasWordSizes_of_classify {index : Nat} {b : RawBlock} {s : SourceBlock}
    (hb : b.HasWordSizes) (h : b.classify index = .ok s) : s.HasWordSizes := by
  have hmedia : ∀ m ∈ b.media.getD [], m.HasWordSizes := by
    cases hm : b.media with
    | none => exact fun _ hmem ↦ nomatch hmem
    | some media => exact hb media hm
  unfold RawBlock.classify at h
  split at h
  · split at h
    · cases h
    · cases h
      unfold SourceBlock.ofSubtype
      split <;> trivial
  · cases h
    exact hmedia
  · cases h
    exact hmedia
  · cases h
    trivial

theorem RawBlock.hasWordSizes_of_classifyAll {index : Nat} {bs : List RawBlock}
    {ss : List SourceBlock} (hbs : ∀ b ∈ bs, b.HasWordSizes)
    (h : RawBlock.classifyAll index bs = .ok ss) : ∀ s ∈ ss, s.HasWordSizes := by
  induction bs generalizing index ss with
  | nil =>
    cases h
    exact fun _ hmem ↦ nomatch hmem
  | cons b bs ih =>
    obtain ⟨hb, hbs⟩ := List.forall_mem_cons.1 hbs
    rw [classifyAll, Except.bind_eq_ok_iff] at h
    obtain ⟨s, hs, h⟩ := h
    obtain ⟨rest, hrest, h⟩ := Except.bind_eq_ok_iff.1 h
    cases h
    exact List.forall_mem_cons.2 ⟨hasWordSizes_of_classify hb hs, ih hbs hrest⟩

/-- All media of a decoded post have sizes of a word. -/
theorem Post.hasWordSizes_of_decodeNode {v : Option Node} {ss : List SourceBlock}
    (h : decodeNode v = .ok ss) : ∀ s ∈ ss, s.HasWordSizes := by
  unfold decodeNode at h
  split at h
  · cases h
  · next bs hbs =>
    obtain ⟨v, -, hraw⟩ := Option.bind_eq_some_iff.1 hbs
    refine RawBlock.hasWordSizes_of_classifyAll ?_ h
    simp only [rawBlocks?, Option.bind_eq_bind, Option.bind_eq_some_iff] at hraw
    obtain ⟨fields, -, hraw⟩ := hraw
    split at hraw
    · next content =>
      cases content with
      | none => cases hraw
      | some content =>
        exact forall_mem_of_listOf? (fun _ _ ↦ RawBlock.hasWordSizes_of_ofNode?) hraw
    · cases hraw

/-! ### Errors -/

/-- A block that has no variant lacks a field. -/
theorem RawBlock.error_of_classify {index : Nat} {b : RawBlock} {e : ConvertError}
    (h : b.classify index = .error e) : ∃ i field, e = .missing i field := by
  unfold classify at h
  split at h
  · split at h
    · cases h
      exact ⟨_, _, rfl⟩
    · cases h
  all_goals cases h

/-- Sorting fails for want of a field and for nothing else. -/
theorem RawBlock.error_of_classifyAll {index : Nat} {bs : List RawBlock} {e : ConvertError}
    (h : classifyAll index bs = .error e) : ∃ i field, e = .missing i field := by
  induction bs generalizing index with
  | nil => cases h
  | cons b bs ih =>
    rw [classifyAll, Except.bind_eq_error_iff] at h
    rcases h with hb | ⟨s, -, h⟩
    · exact error_of_classify hb
    · rcases Except.bind_eq_error_iff.1 h with hrest | ⟨rest, -, h⟩
      · exact ih hrest
      · cases h

/-- A post that cannot be decoded is unreadable or lacks a field. -/
theorem Post.error_of_decodeNode {v : Option Node} {e : ConvertError}
    (h : decodeNode v = .error e) :
    e = .malformed .unreadable ∨ ∃ i field, e = .missing i field := by
  unfold decodeNode at h
  split at h
  · cases h
    exact .inl rfl
  · exact .inr (RawBlock.error_of_classifyAll h)

/-- A source block that cannot be built lacks a field. -/
theorem SourceBlock.error_of_build {table : TagTable} {index : Nat} {s : SourceBlock}
    {e : ConvertError} (h : s.build table index = .error e) :
    ∃ i field, e = .missing i field := by
  cases s with
  | image media =>
    match media, h with
    | [], h | ⟨none, _, _⟩ :: _, h =>
      cases h
      exact ⟨_, _, rfl⟩
  | audio media url =>
    rw [build, Block.audio] at h
    split at h
    · cases h
    · cases h
      exact ⟨_, _, rfl⟩
  | _ => cases h

theorem SourceBlock.error_of_buildAll {table : TagTable} {index : Nat} {ss : List SourceBlock}
    {e : ConvertError} (h : buildAll table index ss = .error e) :
    ∃ i field, e = .missing i field := by
  induction ss generalizing index with
  | nil => cases h
  | cons s ss ih =>
    rw [buildAll, Except.bind_eq_error_iff] at h
    rcases h with hs | ⟨built, -, h⟩
    · exact error_of_build hs
    · rcases Except.bind_eq_error_iff.1 h with hrest | ⟨rest, -, h⟩
      · exact ih hrest
      · cases h

/-- A post that cannot be built lacks a field. -/
theorem Block.error_of_ofSource {table : TagTable} {ss : List SourceBlock} {e : ConvertError}
    (h : ofSource table ss = .error e) : ∃ i field, e = .missing i field :=
  SourceBlock.error_of_buildAll (Except.map_eq_error_iff.1 h)

end PostBlocks
