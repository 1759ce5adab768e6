import PostBlocks.Format.Basic
import PostBlocks.Proofs.Block.Canonical
import PostBlocks.Proofs.Json.Pretty

/-!
# Block trees read back from JSON

A document that is written as a JSON tree reads back as it was, with its attributes in their order,
if it is balanced; if not, reading names its first unbalanced block (`Format.parse_serialize_json`).
The reader gathers the five fields of a block from an object in any order, so what has to be shown
is that it finds in the tree of a written block what was put there (`ofNode?_toJson`).
-/

namespace PostBlocks.Block

open Json (toNode itemNodes)

/-! ### Reading what is written -/

/-- Attributes come back as they were, for they repeat no key. -/
theorem fieldsValue?_toNode {fs : Json.Fields} (h : (Json.object fs).WellFormed) :
    (Json.object fs).toNode.fieldsValue? = some fs := by
  rw [Json.Node.fieldsValue?, Json.value?_toNode _ h]

/-- Fragments and placeholders are read from their items. -/
theorem mapM_contentItems (content : List (Option String)) :
    (itemNodes (contentItems content)).mapM fragment? = some content := by
  induction content with
  | nil => rfl
  | cons fragment content ih =>
    have hcons : contentItems (fragment :: content)
        = fragment.elim .null .string :: contentItems content := rfl
    rw [hcons, itemNodes, List.mapM_cons, ih]
    cases fragment <;> rfl

/-- A block is gathered from its five fields, once its children are read. -/
theorem ofNode?_toJson_of_children {b : Block} (hattrs : (Json.object b.attrs).WellFormed)
    (hchildren : ofNodes? (itemNodes (listToJson b.children)) = some b.children) :
    ofNode? b.toJson.toNode = some b := by
  obtain ⟨name, attrs, children, html, content⟩ := b
  have hattrs := fieldsValue?_toNode hattrs
  have hcontent : (Json.array (contentItems content)).toNode.listOf? fragment? = some content :=
    mapM_contentItems content
  simp only [toJson, toNode, Json.fieldNodes, ofNode?, gather?, Parts.none] at hattrs hcontent ⊢
  simp [Json.Node.string?, hattrs, hchildren, hcontent, Parts.block?]

mutual

/-- A block is read from its JSON object. -/
theorem ofNode?_toJson : ∀ b : Block, (∀ c ∈ b.nodes, (Json.object c.attrs).WellFormed) →
    ofNode? b.toJson.toNode = some b
  | ⟨name, attrs, children, html, content⟩, h => by
    rw [nodes, List.forall_mem_cons] at h
    exact ofNode?_toJson_of_children h.1 (ofNodes?_listToJson children h.2)

theorem ofNodes?_listToJson : ∀ bs : List Block,
    (∀ c ∈ nodesEach bs, (Json.object c.attrs).WellFormed) →
      ofNodes? (itemNodes (listToJson bs)) = some bs
  | [], _ => rfl
  | b :: bs, h => by
    rw [nodesEach, List.forall_mem_append] at h
    rw [listToJson, itemNodes, ofNodes?, ofNode?_toJson b h.1, ofNodes?_listToJson bs h.2]
    rfl

end

/-! ### Numbers of a document -/

/-- Content is written as strings and nulls, so it adds no numbers. -/
theorem itemsHaveWordNumbers_contentItems (content : List (Option String)) :
    Json.ItemsHaveWordNumbers (contentItems content) := by
  induction content with
  | nil => trivial
  | cons fragment content ih => exact ⟨by cases fragment <;> trivial, ih⟩

/-- The numbers of a document are those of the attributes in it. -/
theorem itemsHaveWordNumbers_listToJson : ∀ bs : List Block,
    (∀ c ∈ nodesEach bs, (Json.object c.attrs).HasWordNumbers) →
      Json.ItemsHaveWordNumbers (listToJson bs)
  | [], _ => trivial
  | ⟨name, attrs, children, html, content⟩ :: bs, h => by
    rw [nodesEach, List.forall_mem_append, nodes, List.forall_mem_cons] at h
    obtain ⟨⟨hattrs, hchildren⟩, hbs⟩ := h
    exact ⟨⟨trivial, hattrs, itemsHaveWordNumbers_listToJson children hchildren, trivial,
      itemsHaveWordNumbers_contentItems content, trivial⟩, itemsHaveWordNumbers_listToJson bs hbs⟩

/-! ### Documents -/

theorem areBalanced_iff {bs : List Block} :
    areBalanced bs = true ↔ ∀ b ∈ bs, b.isBalanced = true := by
  induction bs with
  | nil => simp [areBalanced]
  | cons b bs ih => rw [areBalanced, Bool.and_eq_true, ih, List.forall_mem_cons]

/-- What is written of a document is judged by its balance alone. -/
theorem readTree_writeTree {bs : List Block}
    (hattrs : ∀ b ∈ nodesEach bs,
      (Json.object b.attrs).WellFormed ∧ (Json.object b.attrs).HasWordNumbers)
    (hd : (documentJson bs).depth ≤ Json.maxDepth) :
    readTree (writeTree bs) = match bs.find? fun b ↦ !b.isBalanced with
      | some b => .error (.unbalanced b.name)
      | none => .ok bs := by
  have hwords : (documentJson bs).HasWordNumbers :=
    itemsHaveWordNumbers_listToJson bs fun b hb ↦ (hattrs b hb).2
  have hread : documentOfNode? (documentJson bs).toNode = some bs :=
    ofNodes?_listToJson bs fun b hb ↦ (hattrs b hb).1
  cases hfind : bs.find? fun b ↦ !b.isBalanced <;>
    simp only [readTree, writeTree, Json.parse?_pretty hwords hd, Option.bind_some, hread, hfind]

end PostBlocks.Block

namespace PostBlocks.Format

open Block (nodesEach areBalanced documentJson)

/-- A document whose numbers are integers of a word and whose text nests no deeper than any text
may: it can be written as JSON, and the text reads back as the document itself or, if the document
is not balanced, as an error that names the first block at the top level that is not. -/
theorem parse_serialize_json {bs : List Block}
    (hattrs : ∀ b ∈ nodesEach bs,
      (Json.object b.attrs).WellFormed ∧ (Json.object b.attrs).HasWordNumbers)
    (hd : (documentJson bs).depth ≤ Json.maxDepth) :
    ∃ text, json.serialize bs = .ok text
      ∧ (areBalanced bs = true → json.parse text = .ok bs)
      ∧ (areBalanced bs = false → ∃ b, bs.find? (fun b ↦ !b.isBalanced) = some b
          ∧ json.parse text = .error (.tree (.unbalanced b.name))) := by
  have hread := Block.readTree_writeTree hattrs hd
  refine ⟨Block.writeTree bs, rfl, fun hbal ↦ ?_, fun hbal ↦ ?_⟩
  · have hnone : bs.find? (fun b ↦ !b.isBalanced) = none :=
      List.find?_eq_none.2 fun b hb ↦ by simp [Block.areBalanced_iff.1 hbal b hb]
    rw [hnone] at hread
    rw [parse, hread]
    rfl
  · cases hfind : bs.find? fun b ↦ !b.isBalanced with
    | none =>
      have hall : areBalanced bs = true :=
        Block.areBalanced_iff.2 fun b hb ↦ by simpa using List.find?_eq_none.1 hfind b hb
      exact absurd hall (by simp [hbal])
    | some b =>
      rw [hfind] at hread
      refine ⟨b, rfl, ?_⟩
      rw [parse, hread]
      rfl

theorem parse_serialize_json_quote :
    (∃ text, json.serialize [⟨"core/quote", [("b", .string "\"\t"), ("a", .number (.int (-3)))],
          [⟨"x", [], [], "<p>", [some ""]⟩], "-->", [none]⟩] = .ok text
        ∧ json.parse text = .ok [⟨"core/quote", [("b", .string "\"\t"), ("a", .number (.int (-3)))],
          [⟨"x", [], [], "<p>", [some ""]⟩], "-->", [none]⟩])
      ∧ ∃ text, json.serialize [⟨"x", [], [], "", []⟩, ⟨"y", [], [⟨"z", [], [], "", [none]⟩], "",
          [none]⟩] = .ok text ∧ json.parse text = .error (.tree (.unbalanced "y")) := by
  constructor
  · obtain ⟨text, hwrite, hread, -⟩ := @parse_serialize_json [⟨"core/quote",
      [("b", .string "\"\t"), ("a", .number (.int (-3)))], [⟨"x", [], [], "<p>", [some ""]⟩],
      "-->", [none]⟩] (by
        simp [nodesEach, Block.nodes, Json.WellFormed, Json.WellFormedFields, Json.HasWordNumbers,
          Json.FieldsHaveWordNumbers, Json.Number.IsWord]) (by decide)
    exact ⟨text, hwrite, hread rfl⟩
  · obtain ⟨text, hwrite, -, hread⟩ := @parse_serialize_json [⟨"x", [], [], "", []⟩,
      ⟨"y", [], [⟨"z", [], [], "", [none]⟩], "", [none]⟩] (by
        simp [nodesEach, Block.nodes, Json.WellFormed, Json.WellFormedFields, Json.HasWordNumbers,
          Json.FieldsHaveWordNumbers]) (by decide)
    obtain ⟨b, hfind, hparse⟩ := hread rfl
    cases hfind
    exact ⟨text, hwrite, hparse⟩

end PostBlocks.Format
