import PostBlocks.Proofs.Block.Content

/-!
# The first imbalance

A document can be written exactly if it is balanced, whatever it is written as. Where it cannot be,
markup and HTML are refused for the same block: the first of the document, each block coming before
its children, whose placeholders and children differ in number (`document_eq_error_iff`).

This is so because a block is judged before its children are, and these one after another, whatever
is put around what they give: writing stops at the first uneven block of a tree
(`renderEach_eq_error`), and at nothing else (`exists_renderEach_eq_ok_iff`).
-/

namespace PostBlocks.Block

/-- The block itself has not one placeholder a child. -/
def IsUneven (b : Block) : Prop :=
  b.placeholders ≠ b.children.length

instance (b : Block) : Decidable b.IsUneven :=
  inferInstanceAs (Decidable (_ ≠ _))

/-- What is reported of a block that cannot be written. -/
def imbalance (b : Block) : Imbalance :=
  ⟨b.name, b.children.length, b.placeholders⟩

/-- The report on the first uneven block, each block coming before its children. -/
def firstImbalance? (bs : List Block) : Option Imbalance :=
  ((nodesEach bs).find? fun b ↦ b.IsUneven).map imbalance

/-- Blocks are balanced if none in them is uneven. -/
theorem areBalanced_iff_find? {bs : List Block} :
    areBalanced bs = true ↔ ((nodesEach bs).find? fun b ↦ b.IsUneven) = none := by
  rw [areBalanced_iff_forall_nodes, List.find?_eq_none]
  exact forall₂_congr fun c _ ↦ by rw [decide_eq_true_eq, IsUneven, not_not]

variable {wrap : String → Json.Fields → List Char → List Char}

mutual

/-- Writing a block stops at the first in it that is uneven. -/
theorem render_eq_error : ∀ b c : Block, (b.nodes.find? fun b ↦ b.IsUneven) = some c →
    b.render wrap = .error c.imbalance
  | ⟨name, attrs, children, html, content⟩, c, h => by
    rw [nodes, List.find?_cons] at h
    rw [render]
    split at h
    · next huneven =>
      cases h
      exact if_pos (of_decide_eq_true huneven)
    · next heven =>
      have hcount : ¬countPlaceholders content ≠ children.length := of_decide_eq_false heven
      rw [if_neg hcount, renderEach_eq_error children c h]
      rfl

/-- Writing some blocks stops at the first in them that is uneven. -/
theorem renderEach_eq_error : ∀ (bs : List Block) (c : Block),
    ((nodesEach bs).find? fun b ↦ b.IsUneven) = some c → renderEach wrap bs = .error c.imbalance
  | b :: bs, c, h => by
    rw [nodesEach, List.find?_append, Option.or_eq_some_iff] at h
    rw [renderEach]
    rcases h with hb | ⟨hb, hbs⟩
    · rw [render_eq_error b c hb]
      rfl
    · -- the first block has been written when the others are looked at
      have hsingle : areBalanced [b] = true :=
        areBalanced_iff_find?.2 (by rw [nodesEach, nodesEach, List.append_nil, hb])
      obtain ⟨out, hout⟩ := exists_render_eq_ok b (areBalanced_iff.1 hsingle b List.mem_cons_self)
      rw [hout, renderEach_eq_error bs c hbs]
      rfl

end

/-- Blocks can be written if they are balanced. -/
theorem exists_renderEach_eq_ok_iff {bs : List Block} :
    (∃ outs, renderEach wrap bs = .ok outs) ↔ areBalanced bs = true :=
  ⟨fun ⟨outs, h⟩ ↦ ((renderEach_eq_ok_iff bs outs).1 h).1, exists_renderEach_eq_ok bs⟩

/-- Blocks that cannot be written are refused for the first that is uneven. -/
theorem renderEach_eq_error_iff {bs : List Block} {e : Imbalance} :
    renderEach wrap bs = .error e ↔ firstImbalance? bs = some e := by
  rw [firstImbalance?]
  cases hfind : (nodesEach bs).find? fun b ↦ b.IsUneven with
  | none =>
    obtain ⟨outs, hok⟩ := @exists_renderEach_eq_ok wrap bs (areBalanced_iff_find?.2 hfind)
    rw [hok, Option.map_none]
    exact ⟨nofun, nofun⟩
  | some c =>
    rw [renderEach_eq_error bs c hfind, Option.map_some, Except.error.injEq, Option.some.injEq]

/-! ### Documents -/

/-- Writing markup fails for an unbalanced block and for nothing else. -/
theorem documentMarkup_eq_error_iff {bs : List Block} {e : Imbalance} :
    documentMarkup bs = .error e ↔ firstImbalance? bs = some e := by
  rw [documentMarkup, documentMarkupChars, Except.map_eq_error_iff, Except.map_eq_error_iff,
    renderEach_eq_error_iff]

/-- The same of HTML, as both are written by one walk over the tree. -/
theorem documentHtml_eq_error_iff {bs : List Block} {e : Imbalance} :
    documentHtml bs = .error e ↔ firstImbalance? bs = some e := by
  rw [documentHtml, documentHtmlChars, Except.map_eq_error_iff, Except.map_eq_error_iff,
    renderEach_eq_error_iff]

theorem exists_documentMarkup_eq_ok_iff {bs : List Block} :
    (∃ markup, documentMarkup bs = .ok markup) ↔ areBalanced bs = true := by
  simp [documentMarkup, documentMarkupChars, Except.map_eq_ok_iff, exists_renderEach_eq_ok_iff]

theorem exists_documentHtml_eq_ok_iff {bs : List Block} :
    (∃ html, documentHtml bs = .ok html) ↔ areBalanced bs = true := by
  simp [documentHtml, documentHtmlChars, Except.map_eq_ok_iff, exists_renderEach_eq_ok_iff]

/-- Markup and HTML can be written of the same documents, those whose blocks are all balanced, and
both are refused for the same block of the others: the first whose placeholders and children differ
in number, each block coming before its children. -/
theorem document_eq_error_iff (bs : List Block) :
    ((∃ markup, documentMarkup bs = .ok markup) ↔ ∀ b ∈ bs, b.isBalanced = true)
      ∧ ((∃ html, documentHtml bs = .ok html) ↔ ∀ b ∈ bs, b.isBalanced = true)
      ∧ ∀ e, (documentMarkup bs = .error e ↔ firstImbalance? bs = some e)
        ∧ (documentHtml bs = .error e ↔ firstImbalance? bs = some e) := by
  rw [← areBalanced_iff]
  exact ⟨exists_documentMarkup_eq_ok_iff, exists_documentHtml_eq_ok_iff,
    fun _ ↦ ⟨documentMarkup_eq_error_iff, documentHtml_eq_error_iff⟩⟩

example : documentHtml [⟨"core/list", [], [⟨"core/list-item", [], [], "", [none]⟩], "", [none]⟩,
    ⟨"core/html", [], [], "", [none, none]⟩] = .error ⟨"core/list-item", 0, 1⟩ :=
  rfl

end PostBlocks.Block
