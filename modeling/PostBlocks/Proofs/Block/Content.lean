import PostBlocks.Proofs.Block.Tree

/-!
# Output follows content

The output of a block should be its content: every fragment as it is and, for each placeholder, the
output of the next child, inside the block's delimiters or bare. That is so for a block with
children. A block without children is written from its html instead, so a fragment that its html
does not repeat is lost (`not_followEach_content_of_parse`). `FollowEach` says of a whole tree that
an output follows what its blocks are written from, with the choice between content and html as a
parameter (`source`), and it is exactly what writing a tree comes to (`renderEach_eq_ok_iff`). A
document in JSON that is accepted can be written, and its content is not lost where the html of each
block without children is the markup in its content (`exists_followEach_of_parse`).
-/

namespace PostBlocks.Block

/-! ### Content with its placeholders filled -/

/-- The fragments of some content, and for each placeholder the next of some parts, make up an
output; no part is left over and no placeholder left out. -/
inductive Fills : List (Option String) → List (List Char) → List Char → Prop
  | nil : Fills [] [] []
  | fragment {content : List (Option String)} {parts : List (List Char)} {out : List Char}
    (html : String) : Fills content parts out →
    Fills (some html :: content) parts (html.toList ++ out)
  | child {content : List (Option String)} {parts : List (List Char)} {out : List Char}
    (part : List Char) : Fills content parts out →
    Fills (none :: content) (part :: parts) (part ++ out)

/-- Content has an output exactly when it has a placeholder a part. -/
theorem fills_iff {content : List (Option String)} {parts : List (List Char)} {out : List Char} :
    Fills content parts out ↔
      countPlaceholders content = parts.length ∧ interleave content parts = out := by
  constructor
  · intro h
    induction h with
    | nil => exact ⟨rfl, rfl⟩
    | fragment html _ ih =>
      rw [countPlaceholders_some, interleave, ih.2]
      exact ⟨ih.1, rfl⟩
    | child part _ ih =>
      rw [countPlaceholders_none, interleave, ih.1, ih.2]
      exact ⟨rfl, rfl⟩
  · rintro ⟨hcount, rfl⟩
    induction content generalizing parts with
    | nil =>
      obtain rfl := List.length_eq_zero_iff.1 hcount.symm
      exact .nil
    | cons f content ih =>
      cases f with
      | some html =>
        rw [countPlaceholders_some] at hcount
        exact .fragment html (ih hcount)
      | none =>
        rw [countPlaceholders_none] at hcount
        obtain ⟨part, parts, rfl⟩ := List.exists_cons_of_length_eq_add_one hcount.symm
        exact .child part (ih (Nat.succ.inj hcount))

/-! ### Trees and their output -/

/-- Content as it is, without delimiters. -/
def bare (_ : String) (_ : Json.Fields) (content : List Char) : List Char :=
  content

/-- What a block is written from: its content if it has children, else its html alone. -/
def source (b : Block) : List (Option String) :=
  if b.children.isEmpty then [some b.html] else b.content

mutual

/-- The output of a block: what it is written from, filled with the output of its children and
wrapped. -/
inductive Follows (source : Block → List (Option String))
    (wrap : String → Json.Fields → List Char → List Char) : Block → List Char → Prop
  | mk {b : Block} {parts : List (List Char)} {inner : List Char} :
    FollowEach source wrap b.children parts → Fills (source b) parts inner →
    Follows source wrap b (wrap b.name b.attrs inner)

/-- The output of each block. -/
inductive FollowEach (source : Block → List (Option String))
    (wrap : String → Json.Fields → List Char → List Char) :
    List Block → List (List Char) → Prop
  | nil : FollowEach source wrap [] []
  | cons {b : Block} {bs : List Block} {out : List Char} {outs : List (List Char)} :
    Follows source wrap b out → FollowEach source wrap bs outs →
    FollowEach source wrap (b :: bs) (out :: outs)

end

variable {wrap : String → Json.Fields → List Char → List Char}

theorem FollowEach.length_eq {source : Block → List (Option String)} {bs : List Block}
    {outs : List (List Char)} : FollowEach source wrap bs outs → outs.length = bs.length
  | .nil => rfl
  | .cons _ h => congrArg (· + 1) h.length_eq

/-- A balanced block has one way to be written, given the output of its children. -/
theorem fills_source_iff {b : Block} {parts : List (List Char)} {inner : List Char}
    (hcount : b.placeholders = b.children.length) (hparts : parts.length = b.children.length) :
    Fills b.source parts inner ↔
      (if b.children.isEmpty then b.html.toList else interleave b.content parts) = inner := by
  rw [fills_iff, source, hparts]
  split
  · next hnil =>
    have hlength : b.children.length = 0 := List.length_eq_zero_iff.2 (List.isEmpty_iff.1 hnil)
    simp [countPlaceholders, interleave, hlength]
  · exact and_iff_right hcount

/-- Blocks are written one after another. -/
theorem renderEach_cons_eq_ok_iff {b : Block} {bs : List Block} {outs : List (List Char)} :
    renderEach wrap (b :: bs) = .ok outs ↔
      ∃ out rest, b.render wrap = .ok out ∧ renderEach wrap bs = .ok rest ∧ out :: rest = outs := by
  rw [renderEach, Except.bind_eq_ok_iff]
  refine exists_congr fun out ↦ ?_
  rw [Except.bind_eq_ok_iff, ← exists_and_left]
  simp only [pure, Except.pure, Except.ok.injEq]

/-- A block is written once each of its children is. -/
theorem render_eq_ok_iff_of_children {b : Block} {out : List Char} :
    b.render wrap = .ok out ↔ b.placeholders = b.children.length
      ∧ ∃ parts, renderEach wrap b.children = .ok parts
        ∧ wrap b.name b.attrs (if b.children.isEmpty then b.html.toList
          else interleave b.content parts) = out := by
  obtain ⟨name, attrs, children, html, content⟩ := b
  rw [render, placeholders]
  by_cases hcount : countPlaceholders content = children.length
  · rw [if_neg (not_not.2 hcount), Except.bind_eq_ok_iff]
    simp only [hcount, true_and, pure, Except.pure, Except.ok.injEq]
  · rw [if_pos hcount]
    simp only [hcount, false_and, reduceCtorEq]

mutual

/-- Writing a block gives the output that follows it, if the block is balanced. -/
theorem render_eq_ok_iff : ∀ (b : Block) (out : List Char),
    b.render wrap = .ok out ↔ b.isBalanced = true ∧ Follows source wrap b out
  | ⟨name, attrs, children, html, content⟩, out => by
    rw [render_eq_ok_iff_of_children, isBalanced, Bool.and_eq_true, beq_iff_eq]
    constructor
    · rintro ⟨hcount, parts, hrender, rfl⟩
      obtain ⟨hbalanced, hparts⟩ := (renderEach_eq_ok_iff children parts).1 hrender
      have hfills := (fills_source_iff (b := ⟨name, attrs, children, html, content⟩) hcount
        hparts.length_eq).2 rfl
      exact ⟨⟨hcount, hbalanced⟩, .mk hparts hfills⟩
    · rintro ⟨⟨hcount, hbalanced⟩, hfollows⟩
      cases hfollows with
      | @mk _ parts inner hparts hfills =>
        have hinner := (fills_source_iff (b := ⟨name, attrs, children, html, content⟩) hcount
          hparts.length_eq).1 hfills
        exact ⟨hcount, parts, (renderEach_eq_ok_iff children parts).2 ⟨hbalanced, hparts⟩,
          congrArg (wrap name attrs) hinner⟩

/-- Writing some blocks gives the output that follows them, if they are balanced. -/
theorem renderEach_eq_ok_iff : ∀ (bs : List Block) (outs : List (List Char)),
    renderEach wrap bs = .ok outs ↔ areBalanced bs = true ∧ FollowEach source wrap bs outs
  | [], outs => by
    constructor
    · rintro ⟨⟩
      exact ⟨rfl, .nil⟩
    · rintro ⟨-, ⟨⟩⟩
      rfl
  | b :: bs, outs => by
    rw [renderEach_cons_eq_ok_iff, areBalanced, Bool.and_eq_true]
    constructor
    · rintro ⟨out, rest, hb, hbs, rfl⟩
      obtain ⟨hbalanced, hout⟩ := (render_eq_ok_iff b out).1 hb
      obtain ⟨hbalanced', hrest⟩ := (renderEach_eq_ok_iff bs rest).1 hbs
      exact ⟨⟨hbalanced, hbalanced'⟩, .cons hout hrest⟩
    · rintro ⟨⟨hbalanced, hbalanced'⟩, hfollow⟩
      cases hfollow with
      | @cons _ _ out rest hout hrest =>
        have hb := (render_eq_ok_iff b out).2 ⟨hbalanced, hout⟩
        have hbs := (renderEach_eq_ok_iff bs rest).2 ⟨hbalanced', hrest⟩
        exact ⟨out, rest, hb, hbs, rfl⟩

end

/-! ### Documents -/

theorem documentHtml_eq_ok {bs : List Block} {outs : List (List Char)}
    (h : renderEach bare bs = .ok outs) : documentHtml bs = .ok (.ofList outs.flatten) :=
  Except.map_eq_ok_iff.2 ⟨outs.flatten, Except.map_eq_ok_iff.2 ⟨outs, h, rfl⟩, rfl⟩

theorem documentMarkup_eq_ok {bs : List Block} {outs : List (List Char)}
    (h : renderEach delimit bs = .ok outs) : documentMarkup bs = .ok (.ofList outs.flatten) :=
  Except.map_eq_ok_iff.2 ⟨outs.flatten, Except.map_eq_ok_iff.2 ⟨outs, h, rfl⟩, rfl⟩

/-! ### What is accepted can be written -/

mutual

/-- A balanced block can be written. -/
theorem exists_render_eq_ok : ∀ b : Block, b.isBalanced = true → ∃ out, b.render wrap = .ok out
  | ⟨name, attrs, children, html, content⟩, h => by
    rw [isBalanced, Bool.and_eq_true, beq_iff_eq] at h
    obtain ⟨parts, hparts⟩ := exists_renderEach_eq_ok children h.2
    exact ⟨_, render_eq_ok_iff_of_children.2 ⟨h.1, parts, hparts, rfl⟩⟩

/-- Balanced blocks can be written. -/
theorem exists_renderEach_eq_ok : ∀ bs : List Block, areBalanced bs = true →
    ∃ outs, renderEach wrap bs = .ok outs
  | [], _ => ⟨[], rfl⟩
  | b :: bs, h => by
    rw [areBalanced, Bool.and_eq_true] at h
    obtain ⟨out, hout⟩ := exists_render_eq_ok b h.1
    obtain ⟨outs, houts⟩ := exists_renderEach_eq_ok bs h.2
    exact ⟨out :: outs, renderEach_cons_eq_ok_iff.2 ⟨out, outs, hout, houts, rfl⟩⟩

end

/-- A JSON text is accepted if it is a document and its blocks are balanced. -/
theorem readTree_eq_ok_iff {text : String} {bs : List Block} : readTree text = .ok bs ↔
    (Json.Node.parse? text).bind documentOfNode? = some bs ∧ areBalanced bs = true := by
  rw [readTree]
  cases (Json.Node.parse? text).bind documentOfNode? with
  | none => simp
  | some bs' =>
    have hbalanced : bs'.find? (fun b ↦ !b.isBalanced) = none ↔ areBalanced bs' = true := by
      rw [List.find?_eq_none, areBalanced_iff]
      simp
    cases hfind : bs'.find? fun b ↦ !b.isBalanced with
    | none =>
      simp only [hfind, Except.ok.injEq, Option.some.injEq]
      exact ⟨fun h ↦ ⟨h, h ▸ hbalanced.1 hfind⟩, And.left⟩
    | some b =>
      simp only [hfind, reduceCtorEq, Option.some.injEq, false_iff]
      rintro ⟨rfl, h⟩
      rw [hbalanced.2 h] at hfind
      cases hfind

/-! ### Trees that carry their markup once -/

/-- The html of a block without children is the markup in its content. -/
def Agrees (b : Block) : Prop :=
  b.children = [] → b.html = String.join (b.content.filterMap id)

/-- A balanced block that agrees with itself is written from its content in any case. -/
theorem fills_content {b : Block} {parts : List (List Char)} {inner : List Char}
    (hagrees : b.Agrees) (hcount : b.placeholders = b.children.length)
    (hparts : parts.length = b.children.length) (h : Fills b.source parts inner) :
    Fills b.content parts inner := by
  have hinner := (fills_source_iff hcount hparts).1 h
  refine fills_iff.2 ⟨hcount.trans hparts.symm, ?_⟩
  split at hinner
  · next hnil =>
    have hchildren := List.isEmpty_iff.1 hnil
    obtain rfl : parts = [] := List.eq_nil_of_length_eq_zero (by rw [hparts, hchildren]; rfl)
    rw [interleave_nil, ← hagrees hchildren, hinner]
  · exact hinner

mutual

/-- Where blocks agree with themselves, an output that follows their sources follows their contents,
block by block. -/
theorem Follows.content {b : Block} {out : List Char} : b.isBalanced = true →
    (∀ c ∈ b.nodes, c.Agrees) → Follows source wrap b out → Follows Block.content wrap b out
  | hbalanced, hagrees, .mk hparts hfills => by
    obtain ⟨name, attrs, children, html, content⟩ := b
    rw [isBalanced, Bool.and_eq_true, beq_iff_eq] at hbalanced
    rw [nodes, List.forall_mem_cons] at hagrees
    exact .mk (hparts.content hbalanced.2 hagrees.2)
      (fills_content hagrees.1 hbalanced.1 hparts.length_eq hfills)

theorem FollowEach.content {bs : List Block} {outs : List (List Char)} : areBalanced bs = true →
    (∀ c ∈ nodesEach bs, c.Agrees) → FollowEach source wrap bs outs →
    FollowEach Block.content wrap bs outs
  | _, _, .nil => .nil
  | hbalanced, hagrees, .cons hb hbs => by
    rw [areBalanced, Bool.and_eq_true] at hbalanced
    rw [nodesEach, List.forall_mem_append] at hagrees
    exact .cons (hb.content hbalanced.1 hagrees.1) (hbs.content hbalanced.2 hagrees.2)

end

end PostBlocks.Block

namespace PostBlocks.Format

open Block (documentHtml documentMarkup FollowEach source bare delimit nodesEach)

/-- What is accepted as a document in JSON: a list of balanced blocks. -/
theorem parse_json_eq_ok_iff {text : String} {bs : List Block} : json.parse text = .ok bs ↔
    (Json.Node.parse? text).bind Block.documentOfNode? = some bs ∧ Block.areBalanced bs = true := by
  rw [← Block.readTree_eq_ok_iff, parse]
  cases Block.readTree text <;> simp [Except.mapError]

/-- A document that is accepted as JSON can be written as HTML and as markup. A block with children
comes out as its content, one without as its html, whatever its content is. Where each block without
children has the same markup in both places, every block comes out as its content. -/
theorem exists_followEach_of_parse {text : String} {bs : List Block}
    (h : json.parse text = .ok bs) :
    ∃ html markup, documentHtml bs = .ok (.ofList html.flatten)
      ∧ documentMarkup bs = .ok (.ofList markup.flatten)
      ∧ FollowEach source bare bs html ∧ FollowEach source delimit bs markup
      ∧ ((∀ b ∈ nodesEach bs, b.Agrees) →
          FollowEach Block.content bare bs html ∧ FollowEach Block.content delimit bs markup) := by
  have hbalanced := (parse_json_eq_ok_iff.1 h).2
  obtain ⟨html, hhtml⟩ := @Block.exists_renderEach_eq_ok bare bs hbalanced
  obtain ⟨markup, hmarkup⟩ := @Block.exists_renderEach_eq_ok delimit bs hbalanced
  have hfollow := ((Block.renderEach_eq_ok_iff bs html).1 hhtml).2
  have hfollow' := ((Block.renderEach_eq_ok_iff bs markup).1 hmarkup).2
  exact ⟨html, markup, Block.documentHtml_eq_ok hhtml, Block.documentMarkup_eq_ok hmarkup, hfollow,
    hfollow', fun hagrees ↦
      ⟨hfollow.content hbalanced hagrees, hfollow'.content hbalanced hagrees⟩⟩

/-- The list has content and no html, its item both. -/
theorem exists_followEach_of_parse_list : ∃ bs html markup,
    json.parse ("[\x7b\"blockName\":\"core/list\",\"innerContent\":[\"<ul>\",null,\"</ul>\"],"
        ++ "\"innerBlocks\":[\x7b\"blockName\":\"core/list-item\",\"innerHTML\":\"<li>\","
        ++ "\"innerContent\":[\"<li>\"]\x7d]\x7d]") = .ok bs
      ∧ (∀ b ∈ nodesEach bs, b.Agrees)
      ∧ documentHtml bs = .ok (.ofList html.flatten)
      ∧ documentMarkup bs = .ok (.ofList markup.flatten)
      ∧ FollowEach Block.content bare bs html ∧ FollowEach Block.content delimit bs markup := by
  have hparse : json.parse
      ("[\x7b\"blockName\":\"core/list\",\"innerContent\":[\"<ul>\",null,\"</ul>\"],"
        ++ "\"innerBlocks\":[\x7b\"blockName\":\"core/list-item\",\"innerHTML\":\"<li>\","
        ++ "\"innerContent\":[\"<li>\"]\x7d]\x7d]") =
      .ok [⟨"core/list", [], [⟨"core/list-item", [], [], "<li>", [some "<li>"]⟩], "",
        [some "<ul>", none, some "</ul>"]⟩] := parse_json_eq_ok_iff.2 ⟨by cbv, rfl⟩
  have hagrees : ∀ b ∈ nodesEach [⟨"core/list", [], [⟨"core/list-item", [], [], "<li>",
      [some "<li>"]⟩], "", [some "<ul>", none, some "</ul>"]⟩], b.Agrees := by
    simp [nodesEach, Block.nodes, Block.Agrees]
  obtain ⟨html, markup, hhtml, hmarkup, -, -, hcontent⟩ := exists_followEach_of_parse hparse
  exact ⟨_, html, markup, hparse, hagrees, hhtml, hmarkup, hcontent hagrees⟩

/-- A block without children whose markup is in its content alone: the fragment is lost, in HTML as
in markup, where the block is even written as a void. -/
theorem not_followEach_content_of_parse :
    json.parse "[\x7b\"blockName\":\"core/html\",\"innerContent\":[\"<hr>\"]\x7d]"
        = .ok [⟨"core/html", [], [], "", [some "<hr>"]⟩]
      ∧ documentHtml [⟨"core/html", [], [], "", [some "<hr>"]⟩] = .ok ""
      ∧ documentMarkup [⟨"core/html", [], [], "", [some "<hr>"]⟩] = .ok "<!-- wp:html /-->"
      ∧ (¬∃ html,
        documentHtml [⟨"core/html", [], [], "", [some "<hr>"]⟩] = .ok (.ofList html.flatten)
        ∧ FollowEach Block.content bare [⟨"core/html", [], [], "", [some "<hr>"]⟩] html)
      ∧ ¬∃ markup,
        documentMarkup [⟨"core/html", [], [], "", [some "<hr>"]⟩] = .ok (.ofList markup.flatten)
        ∧ FollowEach Block.content delimit [⟨"core/html", [], [], "", [some "<hr>"]⟩] markup := by
  -- what follows the content of the block has its fragment
  have hfragment : ∀ wrap outs,
      FollowEach Block.content wrap [⟨"core/html", [], [], "", [some "<hr>"]⟩] outs →
        outs = [wrap "core/html" [] "<hr>".toList] := by
    rintro wrap outs (_ | ⟨⟨hparts, hfills⟩, ⟨⟩⟩)
    cases hparts
    obtain ⟨-, rfl⟩ := Block.fills_iff.1 hfills
    rfl
  have hempty : documentHtml [⟨"core/html", [], [], "", [some "<hr>"]⟩] = .ok "" := rfl
  have hvoid : documentMarkup [⟨"core/html", [], [], "", [some "<hr>"]⟩]
      = .ok "<!-- wp:html /-->" := rfl
  refine ⟨parse_json_eq_ok_iff.2 ⟨by cbv, rfl⟩, hempty, hvoid, ?_, ?_⟩
  · rintro ⟨html, hhtml, hfollow⟩
    rw [hempty, hfragment bare html hfollow] at hhtml
    exact absurd (Except.ok.inj hhtml) (by decide)
  · rintro ⟨markup, hmarkup, hfollow⟩
    rw [hvoid, hfragment delimit markup hfollow] at hmarkup
    exact absurd (Except.ok.inj hmarkup) (by decide)

end PostBlocks.Format
