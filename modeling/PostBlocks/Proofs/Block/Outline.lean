import Mathlib.Data.List.Forall2
import PostBlocks.Block.Outline
import PostBlocks.Proofs.Block.Canonical

/-!
# The lines of an outline

An outline is made of a header and one label a block, each label behind some indentation and an icon
(`forall₂_outlineEach`). Names and attributes that delimiters can spell have no line feed in their
labels, so what is left to break a line is the preview (`feed_mem_label_iff`). An outline has a line
for each block, and no others but its header, where no preview has a line feed
(`hasLineEach_iff`).
-/

namespace PostBlocks.Block

/-! ### Labels -/

theorem feed_not_mem_icon (name : String) : '\n' ∉ (icon name).toList := by
  unfold icon
  split <;> decide

/-- The characters of names are letters, digits and a few signs. -/
theorem feed_not_mem_short {name : String} (h : BlockName.IsFull name.toList) :
    '\n' ∉ (BlockName.short name).toList := by
  have hname : '\n' ∉ name.toList := fun hmem ↦ absurd (h.isNameChar _ hmem) (by decide)
  unfold BlockName.short
  split
  · next cs hcs =>
    rw [String.toList_ofList]
    exact fun hmem ↦ hname (hcs ▸ by simp [hmem])
  · exact hname

/-- Compact text is on one line. -/
theorem feed_not_mem_compactChars {v : Json} (h : v.HasWordNumbers) : '\n' ∉ v.compactChars := by
  have hlayout : ∀ c, Json.IsLayoutChar c → c ≠ '\n' := by
    rintro c hc rfl
    exact absurd hc (by decide)
  have hchar : ∀ c : Char, '\n' ∉ Json.stringChar c := by
    intro c hmem
    rcases Json.mem_stringChar hmem with rfl | hslash | halnum
    · exact absurd hmem (by decide)
    · exact absurd hslash (by decide)
    · exact absurd halnum (by decide)
  have hwrite : ∀ s : List Char, ∀ c ∈ s.flatMap Json.stringChar, c ≠ '\n' := by
    rintro s c hc rfl
    obtain ⟨d, -, hd⟩ := List.mem_flatMap.1 hc
    exact hchar d hd
  rw [← Json.compactWith_stringChar]
  exact fun hmem ↦ Json.forall_mem_compactWith hlayout hwrite v h _ hmem rfl

/-- A label has the line feeds of its preview. -/
theorem feed_mem_label_iff {b : Block} (h : b.IsWritable) :
    '\n' ∈ label b.name b.attrs b.html ↔ '\n' ∈ Html.preview b.html.toList := by
  have hattrs :
      '\n' ∉ if b.attrs.isEmpty then [] else ' ' :: (Json.object b.attrs).compactChars := by
    split
    · exact List.not_mem_nil
    · exact List.not_mem_cons_of_ne_of_not_mem (by decide) (feed_not_mem_compactChars h.attrs.words)
  rw [label, List.mem_append, List.mem_append,
    or_iff_right (not_or.2 ⟨feed_not_mem_short h.name, hattrs⟩)]
  cases Html.preview b.html.toList with
  | nil => rfl
  | cons c cs => simp

/-! ### Lines -/

mutual

/-- The lines of a block are the labels of its nodes, behind something without a line feed. -/
theorem forall₂_outline {indent : List Char} (h : '\n' ∉ indent) (isLast : Bool) : ∀ b : Block,
    List.Forall₂ (fun line c ↦ ∃ lead, '\n' ∉ lead ∧ line = lead ++ label c.name c.attrs c.html)
      (outline indent isLast b) b.nodes
  | ⟨name, attrs, children, html, content⟩ => by
    rw [outline, nodes]
    have hcell : '\n' ∉ indent ++ cell isLast := by
      cases isLast <;> simp [cell, h]
    have hlead : '\n' ∉ indent ++ connector isLast ++ ' ' :: (icon name).toList ++ [' '] := by
      have hicon := feed_not_mem_icon name
      cases isLast <;> simp [connector, h, hicon]
    exact .cons ⟨_, hlead, by simp⟩ (forall₂_outlineEach hcell children)

theorem forall₂_outlineEach {indent : List Char} (h : '\n' ∉ indent) : ∀ bs : List Block,
    List.Forall₂ (fun line c ↦ ∃ lead, '\n' ∉ lead ∧ line = lead ++ label c.name c.attrs c.html)
      (outlineEach indent bs) (nodesEach bs)
  | [] => .nil
  | b :: bs => List.rel_append (forall₂_outline h bs.isEmpty b) (forall₂_outlineEach h bs)

end

/-- Lines that are labels behind something without a line feed have the line feeds of the labels. -/
theorem forall_feed_not_mem_iff {lines : List (List Char)} {bs : List Block}
    (hlines : List.Forall₂
      (fun line c ↦ ∃ lead, '\n' ∉ lead ∧ line = lead ++ label c.name c.attrs c.html) lines bs) :
    (∀ l ∈ lines, '\n' ∉ l) ↔ ∀ b ∈ bs, '\n' ∉ label b.name b.attrs b.html := by
  induction hlines with
  | nil => simp
  | cons hline _ ih =>
    obtain ⟨lead, hlead, rfl⟩ := hline
    rw [List.forall_mem_cons, List.forall_mem_cons, ih, List.mem_append, or_iff_right hlead]

/-- The header has a number in it and nothing else that depends on the blocks. -/
theorem feed_not_mem_outlineHeader (bs : List Block) : '\n' ∉ outlineHeader bs := by
  have hdigits : '\n' ∉ Json.decimalChars bs.length := fun hmem ↦
    absurd (Json.isDigit_of_mem_decimalChars hmem) (by decide)
  have hicon := feed_not_mem_icon "Document"
  simp [outlineHeader, hdigits, hicon]

/-- The outline is its header and one line for each block at any depth, each ended by a line
feed. -/
def HasLineEach (bs : List Block) : Prop :=
  ∃ lines : List (List Char), lines.length = (nodesEach bs).length
    ∧ (∀ l ∈ outlineHeader bs :: lines, '\n' ∉ l)
    ∧ (documentOutline bs).toList = (outlineHeader bs :: lines).flatMap (· ++ ['\n'])

/-- Of lines that are ended by one each, the line feeds are the ends and those inside of them. -/
theorem count_flatMap_feed (lines : List (List Char)) :
    (lines.flatMap (· ++ ['\n'])).count '\n' = lines.length + lines.flatten.count '\n' := by
  induction lines with
  | nil => rfl
  | cons l lines ih =>
    rw [List.flatMap_cons, List.count_append, List.count_append, ih, List.flatten_cons,
      List.count_append, List.count_singleton_self, List.length_cons]
    omega

theorem count_flatten_eq_zero_iff (lines : List (List Char)) :
    lines.flatten.count '\n' = 0 ↔ ∀ l ∈ lines, '\n' ∉ l := by
  rw [List.count_eq_zero, List.mem_flatten]
  exact ⟨fun h l hl hmem ↦ h ⟨l, hl, hmem⟩, fun h ⟨l, hl, hmem⟩ ↦ h l hl hmem⟩

/-- An outline ends each of its lines with a line feed, the header's too. -/
theorem toList_documentOutline (bs : List Block) : (documentOutline bs).toList
    = (outlineHeader bs :: outlineEach [] bs).flatMap (· ++ ['\n']) := by
  rw [documentOutline, String.toList_ofList, outlineLines]

/-- With a line for each block an outline has that many line feeds and the header's, so counting
them shows that no line has another. -/
theorem HasLineEach.count_eq {bs : List Block} (h : HasLineEach bs) :
    (documentOutline bs).toList.count '\n' = (nodesEach bs).length + 1 := by
  obtain ⟨lines, hlength, hnone, heq⟩ := h
  rw [heq, count_flatMap_feed, (count_flatten_eq_zero_iff _).2 hnone, List.length_cons, hlength]

/-- An outline has a line for each block exactly if no preview has a line feed. -/
theorem hasLineEach_iff {bs : List Block} (h : ∀ b ∈ nodesEach bs, b.IsWritable) :
    HasLineEach bs ↔ ∀ b ∈ nodesEach bs, '\n' ∉ Html.preview b.html.toList := by
  have hlines := forall₂_outlineEach (List.not_mem_nil : '\n' ∉ []) bs
  rw [← forall₂_congr fun b hb ↦ not_congr (feed_mem_label_iff (h b hb)),
    ← forall_feed_not_mem_iff hlines]
  constructor
  · intro heach l hl
    have hcount := heach.count_eq
    rw [toList_documentOutline, count_flatMap_feed, List.length_cons, hlines.length_eq] at hcount
    -- all line feeds are those at the ends of the lines
    have hzero : (outlineHeader bs :: outlineEach [] bs).flatten.count '\n' = 0 := by omega
    exact (count_flatten_eq_zero_iff _).1 hzero l (List.mem_cons_of_mem _ hl)
  · exact fun hnone ↦ ⟨outlineEach [] bs, hlines.length_eq,
      List.forall_mem_cons.2 ⟨feed_not_mem_outlineHeader bs, hnone⟩, toList_documentOutline bs⟩

end PostBlocks.Block
