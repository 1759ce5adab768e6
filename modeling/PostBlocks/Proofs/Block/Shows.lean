import PostBlocks.Proofs.Block.Canonical
import PostBlocks.Proofs.Html.Displays

/-!
# Trees of leaves and containers

The blocks of a converted post are put together from leaves and containers. `Shows p b text` says
that a block is, that its names and attributes can be spelled in a delimiter, and that its markup,
through all of the tree, displays some text. Such a tree is writable at every node
(`Shows.isWritable`), none of its fragments starts a comment (`Shows.no_comment`), and its HTML can
be written and displays the text (`Shows.htmlChars`).
-/

namespace PostBlocks.Block

open Html (Displays IsTag)

mutual

/-- A block of leaves and containers, with the text that its HTML displays. -/
inductive Shows (p : List Char → Prop) : Block → List Char → Prop
  | leaf {name html : String} {attrs : Json.Fields} {text : List Char}
    (hname : BlockName.IsFull name.toList) (hattrs : Attributes.IsRepresentable attrs)
    (hhtml : Displays p html.toList text) : Shows p (.leaf name attrs html) text
  | container {name opening closing : String} {attrs : Json.Fields} {children : List Block}
    {text : List Char} (hname : BlockName.IsFull name.toList)
    (hattrs : Attributes.IsRepresentable attrs) (hopening : Displays p opening.toList [])
    (hclosing : Displays p closing.toList []) (hne : opening ≠ "" ∧ closing ≠ "")
    (hchildren : children ≠ []) : ShowsEach p children text →
    Shows p (.container name attrs opening children closing) text

/-- Some blocks, with the text that their HTML displays, one after another. -/
inductive ShowsEach (p : List Char → Prop) : List Block → List Char → Prop
  | nil : ShowsEach p [] []
  | cons {b : Block} {bs : List Block} {s t : List Char} : Shows p b s → ShowsEach p bs t →
    ShowsEach p (b :: bs) (s ++ t)

end

variable {p : List Char → Prop}

/-- One block shows what it shows among none. -/
theorem ShowsEach.single {b : Block} {s : List Char} (h : Shows p b s) : ShowsEach p [b] s := by
  have := ShowsEach.cons h .nil
  rwa [List.append_nil] at this

/-- Blocks show together what each of them shows. -/
theorem ShowsEach.of_forall₂ {bs : List Block} {texts : List (List Char)}
    (h : List.Forall₂ (Shows p) bs texts) : ShowsEach p bs texts.flatten := by
  induction h with
  | nil => exact .nil
  | cons hb _ ih => exact .cons hb ih

/-! ### Leaves and containers are tidy -/

/-- A leaf has its markup as its only fragment, or no fragment if there is no markup. -/
theorem isTidy_leaf (name : String) (attrs : Json.Fields) (html : String) :
    (leaf name attrs html).IsTidy := by
  unfold leaf
  split
  · next h =>
    rw [String.isEmpty_iff.1 h]
    exact ⟨rfl, (fun hmem ↦ nomatch hmem), .nil, rfl⟩
  · next h =>
    refine ⟨rfl, fun hmem ↦ h ?_, .singleton _, ?_⟩
    · rw [← Option.some.inj (List.mem_singleton.1 hmem)]
      rfl
    · simp

/-- A container has a placeholder a child. -/
theorem countPlaceholders_container (opening closing : String) (children : List Block) :
    countPlaceholders (some opening :: children.map (fun _ ↦ none) ++ [some closing])
      = children.length := by
  simp [countPlaceholders, List.countP_append, List.countP_replicate]

/-- Between the two fragments of a container stand its placeholders. There has to be a child, or the
two would touch. -/
theorem isTidy_container (name : String) (attrs : Json.Fields) {opening closing : String}
    (hne : opening ≠ "" ∧ closing ≠ "") {children : List Block} (hchildren : children ≠ []) :
    (container name attrs opening children closing).IsTidy := by
  refine ⟨countPlaceholders_container opening closing children, fun hmem ↦ ?_, ?_, ?_⟩
  · simp only [container, List.mem_append, List.mem_cons, List.mem_map, Option.some.injEq,
      List.not_mem_nil, or_false] at hmem
    rcases hmem with (h | ⟨_, -, h⟩) | h
    · exact hne.1 h.symm
    · cases h
    · exact hne.2 h.symm
  · have hplaceholders : (children.map fun _ ↦ (none : Option String)).IsChain
        fun f g ↦ f = none ∨ g = none := by
      clear hchildren
      induction children with
      | nil => exact .nil
      | cons b bs ih => exact List.isChain_cons.2 ⟨fun _ _ ↦ .inl rfl, ih⟩
    obtain ⟨b, bs, rfl⟩ := List.exists_cons_of_ne_nil hchildren
    refine List.isChain_append.2 ⟨List.isChain_cons.2 ⟨?_, hplaceholders⟩, .singleton _, ?_⟩
    · rintro g ⟨⟩
      exact .inr rfl
    · intro f hf g _
      have hlast : f ∈ (b :: bs).map fun _ ↦ (none : Option String) := by
        rw [List.map_cons, List.getLast?_cons_cons] at hf
        exact List.mem_of_mem_getLast? hf
      obtain ⟨_, -, rfl⟩ := List.mem_map.1 hlast
      exact .inl rfl
  · simp [container, List.filterMap_append]

mutual

/-- Every node of a built tree is writable. -/
theorem Shows.isWritable {b : Block} {text : List Char} :
    Shows p b text → ∀ c ∈ b.nodes, c.IsWritable
  | @Shows.leaf _ name html attrs _ hname hattrs _ => by
    have hnodes : (leaf name attrs html).nodes = [leaf name attrs html] := rfl
    rw [hnodes, List.forall_mem_singleton]
    exact ⟨hname, hattrs, isTidy_leaf name attrs html⟩
  | @Shows.container _ name _ _ attrs _ _ hname hattrs _ _ hne hchildren h => by
    rw [nodes_eq, List.forall_mem_cons]
    exact ⟨⟨hname, hattrs, isTidy_container name attrs hne hchildren⟩, h.isWritable⟩

theorem ShowsEach.isWritable {bs : List Block} {text : List Char} :
    ShowsEach p bs text → ∀ c ∈ nodesEach bs, c.IsWritable
  | .nil => fun _ hmem ↦ nomatch hmem
  | .cons hb h => by
    rw [nodesEach, List.forall_mem_append]
    exact ⟨hb.isWritable, h.isWritable⟩

end

/-! ### No comments -/

mutual

/-- No fragment of a built tree starts a comment. -/
theorem Shows.no_comment (hp : ∀ name, p name → IsTag name) {b : Block} {text : List Char} :
    Shows p b text →
      ∀ c ∈ b.nodes, ∀ html, some html ∈ c.content → ¬Mark.commentOpen <:+: html.toList
  | @Shows.leaf _ name html attrs _ _ _ hhtml => by
    have hnodes : (leaf name attrs html).nodes = [leaf name attrs html] := rfl
    rw [hnodes, List.forall_mem_singleton]
    intro html' hmem
    unfold leaf at hmem
    split at hmem
    · cases hmem
    · rw [Option.some.inj (List.mem_singleton.1 hmem)]
      exact hhtml.no_comment hp
  | @Shows.container _ _ opening closing _ children _ _ _ hopening hclosing _ _ h => by
    rw [nodes_eq, List.forall_mem_cons]
    refine ⟨fun html hmem ↦ ?_, h.no_comment hp⟩
    simp only [container, List.mem_append, List.mem_cons, List.mem_map, Option.some.injEq,
      List.not_mem_nil, or_false] at hmem
    rcases hmem with (rfl | ⟨_, -, heq⟩) | rfl
    · exact hopening.no_comment hp
    · cases heq
    · exact hclosing.no_comment hp

theorem ShowsEach.no_comment (hp : ∀ name, p name → IsTag name) {bs : List Block}
    {text : List Char} : ShowsEach p bs text →
      ∀ c ∈ nodesEach bs, ∀ html, some html ∈ c.content → ¬Mark.commentOpen <:+: html.toList
  | .nil => fun _ hmem ↦ nomatch hmem
  | .cons hb h => by
    rw [nodesEach, List.forall_mem_append]
    exact ⟨hb.no_comment hp, h.no_comment hp⟩

end

/-! ### HTML -/

/-- Filling the placeholders of a container puts its children's markup between its two fragments. -/
theorem interleave_container (opening closing : String) {children : List Block}
    {parts : List (List Char)} (h : parts.length = children.length) :
    interleave (some opening :: children.map (fun _ ↦ none) ++ [some closing]) parts
      = opening.toList ++ parts.flatten ++ closing.toList := by
  have hplaceholders : interleave (children.map (fun _ ↦ none) ++ [some closing]) parts
      = parts.flatten ++ closing.toList := by
    induction children generalizing parts with
    | nil =>
      obtain rfl := List.length_eq_zero_iff.1 h
      simp [interleave]
    | cons b bs ih =>
      cases parts with
      | nil => cases h
      | cons part parts =>
        rw [List.map_cons, List.cons_append, interleave, ih (Nat.succ.inj h), List.flatten_cons,
          List.append_assoc]
  rw [List.cons_append, interleave, hplaceholders, List.append_assoc]

theorem length_of_renderEach {wrap : String → Json.Fields → List Char → List Char}
    {bs : List Block} {parts : List (List Char)} (h : renderEach wrap bs = .ok parts) :
    parts.length = bs.length := by
  induction bs generalizing parts with
  | nil =>
    cases h
    rfl
  | cons b bs ih =>
    rw [renderEach, Except.bind_eq_ok_iff] at h
    obtain ⟨part, -, h⟩ := h
    obtain ⟨rest, hrest, h⟩ := Except.bind_eq_ok_iff.1 h
    cases h
    exact congrArg (· + 1) (ih hrest)

mutual

/-- The HTML of a built tree displays its text. -/
theorem Shows.htmlChars {b : Block} {text : List Char} :
    Shows p b text → ∃ html, b.htmlChars = .ok html ∧ Displays p html text
  | @Shows.leaf _ name html attrs _ _ _ hhtml => by
    refine ⟨html.toList, ?_, hhtml⟩
    have hplaceholders : countPlaceholders (if html.isEmpty then [] else [some html]) = 0 := by
      split <;> rfl
    rw [Block.htmlChars, leaf, render, hplaceholders]
    rfl
  | @Shows.container _ name opening closing attrs children _ _ _ hopening hclosing _
      hchildren h => by
    obtain ⟨parts, hrender, hparts⟩ := h.htmlChars
    refine ⟨opening.toList ++ parts.flatten ++ closing.toList, ?_, ?_⟩
    · have hcontent := interleave_container opening closing (length_of_renderEach hrender)
      rw [Block.htmlChars, container, render,
        if_neg (not_not.2 (countPlaceholders_container opening closing children)), hrender,
        ← hcontent]
      have hnonempty : children.isEmpty = false := by simpa using hchildren
      simp only [hnonempty]
      rfl
    · exact hopening.between hclosing hparts

/-- The HTML of some built trees is theirs one after another. -/
theorem ShowsEach.htmlChars {bs : List Block} {text : List Char} : ShowsEach p bs text →
    ∃ parts, renderEach (fun _ _ content ↦ content) bs = .ok parts ∧ Displays p parts.flatten text
  | .nil => ⟨[], rfl, .nil⟩
  | .cons hb h => by
    obtain ⟨part, hpart, hdisplays⟩ := hb.htmlChars
    obtain ⟨parts, hparts, hdisplays'⟩ := h.htmlChars
    refine ⟨part :: parts, ?_, hdisplays.append hdisplays'⟩
    rw [Block.htmlChars] at hpart
    rw [renderEach, hpart, hparts]
    rfl

end

end PostBlocks.Block
