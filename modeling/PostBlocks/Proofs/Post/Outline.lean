import PostBlocks.Proofs.Block.Outline
import PostBlocks.Proofs.Post.Preview

/-!
# Outlines of converted posts

Every block of a converted post has a label that breaks its line only if its preview does. Previews
show the texts of a post, and line feeds of these that are written as breaks show as spaces. Those
of paragraphs, headings and list items stay as they are in the markup, and then they are in the
preview, so the outline of a post has one line a block exactly if no such text shows a line feed
(`Block.hasLineEach_ofSource_iff`). A post of one such paragraph has an outline of three lines
(`Post.not_hasLineEach_feed`).
-/

namespace PostBlocks

open Html (Previews)

/-- What holds of lists holds of all of a document if it holds of all that is grouped in it. -/
theorem Listing.forall_nodesEach_group_iff {P : Block → Prop}
    (hlist : ∀ kind items, P (.list kind items)) (builts : List Built) :
    (∀ b ∈ Block.nodesEach (Block.group builts), P b)
      ↔ ∀ built ∈ builts, ∀ b ∈ built.toBlock.nodes, P b := by
  have hrun : ∀ r : Run, (∀ b ∈ r.toBlock.nodes, P b)
      ↔ ∀ built ∈ r.members, ∀ b ∈ built.toBlock.nodes, P b := by
    intro r
    cases r with
    | block b => simp [Run.toBlock, Run.members, Built.toBlock]
    | items kind bs hne =>
      have hchildren : (Block.list kind bs).children = bs := by cases kind <;> rfl
      rw [Run.toBlock, Block.nodes_eq, List.forall_mem_cons, hchildren, Run.members,
        List.forall_mem_map, Block.nodesEach_eq_flatMap, List.forall_mem_flatMap]
      exact and_iff_right (hlist kind bs)
  obtain ⟨runs, hgroups, rfl⟩ := exists_groups builts
  rw [Block.group, hgroups.finish_eq, Block.nodesEach_eq_flatMap, List.forall_mem_flatMap,
    List.forall_mem_map, List.forall_mem_flatMap]
  exact forall₂_congr fun r _ ↦ hrun r

section

variable {table : TagTable} (ht : table.IsAlphanumeric) (hbr : table.HasNoBreak)
include ht hbr

/-- What is built from a source block shows a line feed where its text does and keeps it. -/
theorem SourceBlock.forall_feed_not_mem_iff {s : SourceBlock} {index : Nat} {built : Built}
    (h : s.build table index = .ok built) :
    (∀ b ∈ built.toBlock.nodes, '\n' ∉ Html.preview b.html.toList)
      ↔ (s.breaksLines = false → ∀ shown, Previews s.textChars shown → '\n' ∉ shown) := by
  have hpreviews : (∀ b ∈ built.toBlock.nodes, '\n' ∉ Html.preview b.html.toList)
      ↔ ∀ shown ∈ built.toBlock.previews, '\n' ∉ shown := by
    rw [Block.previews, List.forall_mem_map]
  rw [hpreviews]
  cases hs : s.styledText? with
  | none =>
    have hempty : s.textChars = [] := by
      rw [textChars, hs]
      rfl
    rw [previews_of_styledText? hs h, hempty, List.forall_mem_singleton]
    exact iff_of_true List.not_mem_nil fun _ shown hshown ↦ hshown.feed_not_mem List.not_mem_nil
  | some t =>
    obtain ⟨_, shown, hbuild, hshown, heq⟩ := exists_previews_of_styledText? ht hbr hs index
    obtain rfl := Except.ok.inj (h.symm.trans hbuild)
    have htext : s.textChars = t.text.toList := by
      rw [textChars, hs]
      rfl
    have hnone : (∀ shown' ∈ built.toBlock.previews, '\n' ∉ shown') ↔ '\n' ∉ shown := by
      rw [heq]
      split <;> simp
    rw [hnone, htext]
    cases hbreaks : s.breaksLines with
    | true =>
      rw [keptText, if_pos hbreaks] at hshown
      simpa using hshown.feed_not_mem (Html.feed_not_mem_spaceFeeds _)
    | false =>
      rw [keptText, if_neg (by simp [hbreaks]), Html.previews_iff] at hshown
      simp only [Html.previews_iff, forall_eq, forall_const, hshown]

/-- The outline of a post has one line for each block, and no others but its header, exactly if no
text of which the line feeds are kept shows one. -/
theorem Block.hasLineEach_ofSource_iff {ss : List SourceBlock} {bs : List Block}
    (hs : ∀ s ∈ ss, s.HasWordSizes) (h : ofSource table ss = .ok bs) :
    HasLineEach bs ↔ ∀ s ∈ ss, s.breaksLines = false →
      ∀ shown, Previews s.textChars shown → '\n' ∉ shown := by
  have hwritable : ∀ b ∈ nodesEach bs, b.IsWritable :=
    (showsEach_ofSource (fun _ htag _ ↦ htag) ht (fun _ hname ↦ (hname.isTag ht).1) hs
      h).isWritable
  rw [hasLineEach_iff hwritable]
  obtain ⟨builts, hbuilts, rfl⟩ := Except.map_eq_ok_iff.1 h
  rw [Listing.forall_nodesEach_group_iff fun kind items ↦ by
    rw [preview_list]
    exact List.not_mem_nil]
  have hall := SourceBlock.forall₂_buildAll hbuilts
  clear hbuilts hwritable h hs
  induction hall with
  | nil => simp
  | cons hbuild _ ih =>
    obtain ⟨i, hbuild⟩ := hbuild
    rw [List.forall_mem_cons, List.forall_mem_cons]
    exact and_congr (SourceBlock.forall_feed_not_mem_iff ht hbr hbuild) ih

end

/-- Line feeds of a quotation do not break its line, nor do those that a preview cuts off. -/
theorem Block.hasLineEach_ofSource_quote : ∃ bs,
    ofSource .standard [.quote ⟨"a\nb", []⟩, .paragraph ⟨"c\n", []⟩] = .ok bs
      ∧ HasLineEach bs := by
  have hsizes : ∀ s ∈ [.quote ⟨"a\nb", []⟩, .paragraph ⟨"c\n", []⟩],
      SourceBlock.HasWordSizes s := by
    simp [SourceBlock.HasWordSizes]
  refine ⟨_, rfl, (hasLineEach_ofSource_iff TagTable.isAlphanumeric_standard
    TagTable.hasNoBreak_standard hsizes rfl).2 ?_⟩
  simp only [Html.previews_iff, forall_eq]
  decide

/-- A post of one paragraph has an outline of three lines: a line feed of its text is kept. -/
theorem Post.not_hasLineEach_feed : ∃ ss bs,
    decode "\x7b\"content\":[\x7b\"type\":\"text\",\"text\":\"a\\nb\"\x7d]\x7d" = .ok ss
      ∧ Block.ofSource .standard ss = .ok bs
      ∧ Block.documentOutline bs = "⧉ Document (1 blocks)\n└─ ¶ paragraph: a\nb\n"
      ∧ ¬Block.HasLineEach bs := by
  have hdecode : decode "\x7b\"content\":[\x7b\"type\":\"text\",\"text\":\"a\\nb\"\x7d]\x7d"
      = .ok [.paragraph ⟨"a\nb", []⟩] := by with_unfolding_all rfl
  have houtline : Block.documentOutline [Block.paragraph .standard ⟨"a\nb", []⟩]
      = "⧉ Document (1 blocks)\n└─ ¶ paragraph: a\nb\n" := by
    have hcount : Json.decimalChars [Block.paragraph .standard ⟨"a\nb", []⟩].length = ['1'] :=
      Json.decimalChars_of_lt (by decide)
    rw [Block.documentOutline, Block.outlineLines, Block.outlineHeader, hcount]
    decide +kernel
  have hbuild : Block.ofSource .standard [.paragraph ⟨"a\nb", []⟩]
      = .ok [Block.paragraph .standard ⟨"a\nb", []⟩] := rfl
  refine ⟨_, _, hdecode, hbuild, houtline, fun heach ↦ ?_⟩
  have hcount := heach.count_eq
  rw [houtline] at hcount
  exact absurd hcount (by decide)

end PostBlocks
