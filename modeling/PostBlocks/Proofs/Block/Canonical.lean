import PostBlocks.Block.Markup
import PostBlocks.Proofs.Block.Grammar

/-!
# Canonical trees

A tree that reading can build looks the same at each of its nodes: the content has a placeholder a
child, its fragments are not empty and do not touch, and the markup of the block is made of them
(`Block.IsTidy`). Every derived tree is of this kind (`Derives.isTidy`), and so is every tree that
is read from a source (`isCanonical_of_parse`).

Conversely such a tree comes with the chunks it is written as (`Block.chunks`): a void where there
is no content, else the content between an opener and a closer. Their written form is the markup of
the tree (`renderEach_delimit`), and they derive the tree (`derivesDocument_chunks`).
-/

namespace PostBlocks

namespace Block

/-! ### The nodes of a tree -/

mutual

/-- A block and everything inside it. -/
def nodes : Block → List Block
  | ⟨name, attrs, children, html, content⟩ =>
    ⟨name, attrs, children, html, content⟩ :: nodesEach children

/-- Some blocks and everything inside them. -/
def nodesEach : List Block → List Block
  | [] => []
  | b :: bs => b.nodes ++ nodesEach bs

end

theorem nodes_eq (b : Block) : b.nodes = b :: nodesEach b.children := by
  obtain ⟨name, attrs, children, html, content⟩ := b
  rfl

theorem nodesEach_eq_flatMap (bs : List Block) : nodesEach bs = bs.flatMap nodes := by
  induction bs with
  | nil => rfl
  | cons b bs ih => rw [nodesEach, ih, List.flatMap_cons]

/-- A block as reading leaves it: as many placeholders as children, no fragment empty or next to
another one, and all markup in the fragments. -/
structure IsTidy (b : Block) : Prop where
  placeholders : b.placeholders = b.children.length
  nonempty : some "" ∉ b.content
  separated : b.content.IsChain fun f g ↦ f = none ∨ g = none
  html : b.html = String.join (b.content.filterMap id)

/-- A tidy block whose name and attributes delimiters can spell. -/
structure IsWritable (b : Block) : Prop where
  name : BlockName.IsFull b.name.toList
  attrs : Attributes.IsRepresentable b.attrs
  tidy : b.IsTidy

/-- Blocks are balanced if each node in them has as many placeholders as children. -/
theorem areBalanced_iff_forall_nodes : ∀ bs : List Block,
    areBalanced bs = true ↔ ∀ c ∈ nodesEach bs, c.placeholders = c.children.length
  | [] => ⟨fun _ _ hmem ↦ (nomatch hmem), fun _ ↦ rfl⟩
  | ⟨name, attrs, children, html, content⟩ :: bs => by
    rw [areBalanced, isBalanced, Bool.and_eq_true, Bool.and_eq_true, beq_iff_eq,
      areBalanced_iff_forall_nodes children, areBalanced_iff_forall_nodes bs, nodesEach, nodes,
      List.forall_mem_append, List.forall_mem_cons]
    rfl

/-- Tidy blocks are balanced, inside and out. -/
theorem areBalanced_of_isTidy (bs : List Block) (h : ∀ c ∈ nodesEach bs, c.IsTidy) :
    areBalanced bs = true :=
  (areBalanced_iff_forall_nodes bs).2 fun c hc ↦ (h c hc).placeholders

/-! ### Chunks of a tree -/

/-- Content as chunks, with the next of some parts for each placeholder. -/
def weave : List (Option String) → List (List Chunk) → List Chunk
  | [], _ => []
  | some html :: content, parts => .literal html.toList :: weave content parts
  | none :: content, part :: parts => part ++ weave content parts
  | none :: content, [] => weave content []

mutual

/-- The chunks that a block is written as. -/
def chunks : Block → List Chunk
  | ⟨name, attrs, children, _, content⟩ =>
    if content.isEmpty then [.mark (.delimiter ⟨.void, name, attrs⟩)]
    else
      .mark (.delimiter ⟨.opener, name, attrs⟩) :: weave content (chunksEach children)
        ++ [.mark (.delimiter ⟨.closer, name, []⟩)]

/-- The chunks of each block. -/
def chunksEach : List Block → List (List Chunk)
  | [] => []
  | b :: bs => b.chunks :: chunksEach bs

end

theorem chunksEach_eq_map (bs : List Block) : chunksEach bs = bs.map chunks := by
  induction bs with
  | nil => rfl
  | cons b bs ih => rw [chunksEach, ih, List.map_cons]

/-- A block is written with a delimiter in front and one at the end. -/
theorem exists_chunks_eq (b : Block) :
    ∃ m ks, b.chunks = .mark m :: ks ∧ ∀ k ∈ b.chunks.getLast?, ¬k.IsLiteral := by
  obtain ⟨name, attrs, children, html, content⟩ := b
  rw [chunks]
  split
  · exact ⟨_, _, rfl, by rintro k ⟨⟩ hk; exact hk⟩
  · refine ⟨_, _, rfl, ?_⟩
    rw [List.getLast?_concat]
    rintro k ⟨⟩ hk
    exact hk

end Block

/-! ### Writing -/

/-- A chunk as it is written; what is no delimiter is not. -/
def Chunk.write : Chunk → List Char
  | literal html => html
  | mark (.delimiter d) => d.write
  | mark (.malformed _) => []

theorem Delimiter.exists_write_eq (d : Delimiter) : ∃ cs, d.write = '<' :: cs := by
  obtain ⟨_ | _ | _, name, attrs⟩ := d <;> exact ⟨_, rfl⟩

namespace Block

/-- Writing the pieces of some content is writing what they are woven into. -/
theorem interleave_flatMap_write (content : List (Option String)) (parts : List (List Chunk)) :
    interleave content (parts.map (·.flatMap Chunk.write))
      = (weave content parts).flatMap Chunk.write := by
  induction content generalizing parts with
  | nil => rfl
  | cons f content ih =>
    cases f with
    | some html => rw [weave, interleave, ih, List.flatMap_cons, Chunk.write]
    | none =>
      cases parts with
      | nil => exact ih []
      | cons part parts => rw [weave, List.map_cons, interleave, ih, List.flatMap_append]

theorem interleave_nil (content : List (Option String)) :
    interleave content [] = (String.join (content.filterMap id)).toList := by
  induction content with
  | nil => rfl
  | cons f content ih =>
    cases f with
    | some html => simp [interleave, ih]
    | none => simpa [interleave] using ih

/-- The content of a tidy block is empty only if it has no fragment and no child. -/
theorem flatMap_weave_ne_nil {content : List (Option String)} {bs : List Block}
    (hne : content ≠ []) (hcount : countPlaceholders content = bs.length)
    (hfragments : some "" ∉ content)
    (hmarks : ∀ b ∈ bs, b.chunks.flatMap Chunk.write ≠ []) :
    (weave content (chunksEach bs)).flatMap Chunk.write ≠ [] := by
  cases content with
  | nil => exact absurd rfl hne
  | cons f content =>
    cases f with
    | some html =>
      intro h
      rw [weave, List.flatMap_cons, List.append_eq_nil_iff] at h
      exact hfragments (String.toList_eq_nil_iff.1 h.1 ▸ List.mem_cons_self)
    | none =>
      cases bs with
      | nil =>
        rw [countPlaceholders_none] at hcount
        cases hcount
      | cons b bs =>
        intro h
        rw [chunksEach, weave, List.flatMap_append, List.append_eq_nil_iff] at h
        exact hmarks b List.mem_cons_self h.1

/-- A block is never written as nothing: there is its delimiter. -/
theorem flatMap_chunks_ne_nil (b : Block) : b.chunks.flatMap Chunk.write ≠ [] := by
  obtain ⟨name, attrs, children, html, content⟩ := b
  rw [chunks]
  split
  · obtain ⟨cs, hcs⟩ := Delimiter.exists_write_eq ⟨.void, name, attrs⟩
    simp [Chunk.write, hcs]
  · obtain ⟨cs, hcs⟩ := Delimiter.exists_write_eq ⟨.opener, name, attrs⟩
    simp [Chunk.write, hcs]

mutual

/-- The markup of a tidy block is its chunks, written one after another. -/
theorem render_delimit : ∀ b : Block, (∀ c ∈ b.nodes, c.IsTidy) →
    b.render delimit = .ok (b.chunks.flatMap Chunk.write)
  | ⟨name, attrs, children, html, content⟩, h => by
    rw [nodes, List.forall_mem_cons] at h
    obtain ⟨htidy, hchildren⟩ := h
    have hcount : countPlaceholders content = children.length := htidy.placeholders
    have hhtml : html = String.join (content.filterMap id) := htidy.html
    have hcontent : (if children.isEmpty then html.toList
        else interleave content ((chunksEach children).map (·.flatMap Chunk.write)))
          = (weave content (chunksEach children)).flatMap Chunk.write := by
      rw [interleave_flatMap_write]
      split
      · next hnil =>
        -- without children the block's own markup is written, which is its fragments
        rw [List.isEmpty_iff.1 hnil, chunksEach, ← interleave_flatMap_write, hhtml]
        exact (interleave_nil content).symm
      · rfl
    rw [render, if_neg (not_not.2 hcount), renderEach_delimit children hchildren]
    simp only [bind, Except.bind, pure, Except.pure, hcontent, Except.ok.injEq]
    rw [chunks, delimit]
    by_cases hne : content = []
    · subst hne
      simp [weave, Chunk.write]
    · have hwritten := flatMap_weave_ne_nil hne hcount htidy.nonempty
        (fun b _ ↦ flatMap_chunks_ne_nil b)
      rw [if_neg (by simpa using hwritten), if_neg (by simpa using hne)]
      simp [Chunk.write, Delimiter.write]

/-- The markup of tidy blocks is their chunks, written one after another. -/
theorem renderEach_delimit : ∀ bs : List Block, (∀ c ∈ nodesEach bs, c.IsTidy) →
    renderEach delimit bs = .ok ((chunksEach bs).map (·.flatMap Chunk.write))
  | [], _ => rfl
  | b :: bs, h => by
    rw [nodesEach, List.forall_mem_append] at h
    rw [renderEach, render_delimit b h.1, renderEach_delimit bs h.2]
    rfl

end

/-- The markup of a tidy document is its chunks, written one after another. -/
theorem documentMarkupChars_eq {bs : List Block} (h : ∀ c ∈ nodesEach bs, c.IsTidy) :
    documentMarkupChars bs = .ok ((bs.flatMap chunks).flatMap Chunk.write) := by
  rw [documentMarkupChars, renderEach_delimit bs h, chunksEach_eq_map, List.flatMap_assoc]
  simp only [Except.map, List.map_map, List.flatMap_def, Function.comp_def]

/-! ### Deriving -/

/-- Content derives from its chunks when each child does. -/
theorem derivesContent_weave {content : List (Option String)} {bs : List Block}
    (hcount : countPlaceholders content = bs.length) (hfragments : some "" ∉ content)
    (hbs : ∀ b ∈ bs, Derives b.chunks b) :
    DerivesContent (weave content (chunksEach bs)) bs content := by
  induction content generalizing bs with
  | nil =>
    obtain rfl := List.length_eq_zero_iff.1 hcount.symm
    exact .nil
  | cons f content ih =>
    have hfragments' : some "" ∉ content := fun hmem ↦ hfragments (List.mem_cons_of_mem _ hmem)
    cases f with
    | some html =>
      rw [countPlaceholders_some] at hcount
      have hne : html.toList ≠ [] := fun hnil ↦
        hfragments (String.toList_eq_nil_iff.1 hnil ▸ List.mem_cons_self)
      have := DerivesContent.literal hne (ih hcount hfragments' hbs)
      rwa [String.ofList_toList] at this
    | none =>
      rw [countPlaceholders_none] at hcount
      cases bs with
      | nil => cases hcount
      | cons b bs =>
        obtain ⟨hb, hbs⟩ := List.forall_mem_cons.1 hbs
        exact .block hb (ih (Nat.succ.inj hcount) hfragments' hbs)

mutual

/-- A tidy block derives from its chunks. -/
theorem derives_chunks : ∀ b : Block, (∀ c ∈ b.nodes, c.IsTidy) → Derives b.chunks b
  | ⟨name, attrs, children, html, content⟩, h => by
    rw [nodes, List.forall_mem_cons] at h
    obtain ⟨htidy, hchildren⟩ := h
    have hcount : countPlaceholders content = children.length := htidy.placeholders
    have hhtml : html = String.join (content.filterMap id) := htidy.html
    have hweave := derivesContent_weave hcount htidy.nonempty
      (derives_of_mem_chunksEach children hchildren)
    rw [chunks]
    split
    · next hnil =>
      obtain rfl := List.isEmpty_iff.1 hnil
      obtain rfl := List.length_eq_zero_iff.1 hcount.symm
      rw [hhtml]
      exact .void name attrs
    · rw [hhtml]
      exact .pair hweave

theorem derives_of_mem_chunksEach : ∀ bs : List Block, (∀ c ∈ nodesEach bs, c.IsTidy) →
    ∀ b ∈ bs, Derives b.chunks b
  | [], _ => fun _ hb ↦ nomatch hb
  | b :: bs, h => by
    rw [nodesEach, List.forall_mem_append] at h
    exact List.forall_mem_cons.2 ⟨derives_chunks b h.1, derives_of_mem_chunksEach bs h.2⟩

end

/-- A tidy document derives from its chunks. -/
theorem derivesDocument_chunks {bs : List Block} (h : ∀ c ∈ nodesEach bs, c.IsTidy) :
    DerivesDocument (bs.flatMap chunks) bs := by
  have hbs := derives_of_mem_chunksEach bs h
  clear h
  induction bs with
  | nil => exact .nil
  | cons b bs ih =>
    obtain ⟨hb, hbs⟩ := List.forall_mem_cons.1 hbs
    exact .block hb (ih hbs)

/-! ### Derived trees -/

/-- The fragments of derived content are apart, since its literal chunks are. -/
theorem DerivesContent.separated {ks : List Chunk} {children : List Block}
    {content : List (Option String)} (hks : ks.IsChain Chunk.Adjoins) :
    DerivesContent ks children content → content.IsChain fun f g ↦ f = none ∨ g = none
  | .nil => .nil
  | .literal hne h => by
    obtain ⟨hhead, hks⟩ := List.isChain_cons.1 hks
    refine List.isChain_cons.2 ⟨?_, h.separated hks⟩
    intro g hg
    cases h with
    | nil => cases hg
    | literal => exact absurd ⟨trivial, trivial⟩ (hhead _ rfl)
    | block =>
      cases hg
      exact .inr rfl
  | .block _ h =>
    List.isChain_cons.2 ⟨fun _ _ ↦ .inl rfl, h.separated (List.isChain_append.1 hks).2.1⟩

mutual

/-- A derived block is tidy, and so is everything inside it. -/
theorem Derives.isTidy {ks : List Chunk} {b : Block} (hks : ks.IsChain Chunk.Adjoins) :
    Derives ks b → ∀ c ∈ b.nodes, c.IsTidy
  | .void name attrs => by
    rintro c ⟨⟩
    · exact ⟨rfl, (fun hmem ↦ nomatch hmem), .nil, rfl⟩
    · next hmem => cases hmem
  | .pair h => by
    have hks := (List.isChain_append.1 (List.isChain_cons.1 hks).2).1
    rw [nodes, List.forall_mem_cons]
    exact ⟨⟨h.countPlaceholders, h.nonempty, h.separated hks, rfl⟩, h.isTidy hks⟩

/-- The same of all that is inside of derived content. Its chunks are part of a cut text, so no two
pieces of literal markup touch. -/
theorem DerivesContent.isTidy {ks : List Chunk} {children : List Block}
    {content : List (Option String)} (hks : ks.IsChain Chunk.Adjoins) :
    DerivesContent ks children content → ∀ c ∈ nodesEach children, c.IsTidy
  | .nil => fun _ hmem ↦ nomatch hmem
  | .literal _ h => h.isTidy (List.isChain_cons.1 hks).2
  | .block hb h => by
    obtain ⟨hjs, hks, -⟩ := List.isChain_append.1 hks
    rw [nodesEach, List.forall_mem_append]
    exact ⟨hb.isTidy hjs, h.isTidy hks⟩

end

/-- A derived document is tidy. -/
theorem DerivesDocument.isTidy {ks : List Chunk} {bs : List Block} (hks : ks.IsChain Chunk.Adjoins)
    (h : DerivesDocument ks bs) : ∀ c ∈ nodesEach bs, c.IsTidy := by
  induction h with
  | nil => exact fun _ hmem ↦ nomatch hmem
  | blank _ _ ih => exact ih (List.isChain_cons.1 hks).2
  | block hb _ ih =>
    obtain ⟨hjs, hks, -⟩ := List.isChain_append.1 hks
    rw [nodesEach, List.forall_mem_append]
    exact ⟨hb.isTidy hjs, ih hks⟩

section

variable {p : String → Json.Fields → Prop}

mutual

/-- What holds of all delimiters holds of a block derived from them. -/
theorem Derives.forall_nodes {ks : List Chunk} {b : Block}
    (hp : ∀ d, .mark (.delimiter d) ∈ ks → p d.name d.attrs) :
    Derives ks b → ∀ c ∈ b.nodes, p c.name c.attrs
  | .void name attrs => by
    rintro c ⟨⟩
    · exact hp ⟨.void, name, attrs⟩ List.mem_cons_self
    · next hmem => cases hmem
  | @Derives.pair name attrs _ _ _ _ h => by
    rw [nodes, List.forall_mem_cons]
    exact ⟨hp ⟨.opener, name, attrs⟩ List.mem_cons_self, h.forall_nodes fun d hd ↦
      hp d (List.mem_cons_of_mem _ (List.mem_append_left _ hd))⟩

theorem DerivesContent.forall_nodes {ks : List Chunk} {children : List Block}
    {content : List (Option String)} (hp : ∀ d, .mark (.delimiter d) ∈ ks → p d.name d.attrs) :
    DerivesContent ks children content → ∀ c ∈ nodesEach children, p c.name c.attrs
  | .nil => fun _ hmem ↦ nomatch hmem
  | .literal _ h => h.forall_nodes fun d hd ↦ hp d (List.mem_cons_of_mem _ hd)
  | .block hb h => by
    rw [nodesEach, List.forall_mem_append]
    exact ⟨hb.forall_nodes fun d hd ↦ hp d (List.mem_append_left _ hd),
      h.forall_nodes fun d hd ↦ hp d (List.mem_append_right _ hd)⟩

end

/-- What holds of all delimiters holds of a document derived from them. -/
theorem DerivesDocument.forall_nodes {ks : List Chunk} {bs : List Block}
    (h : DerivesDocument ks bs) (hp : ∀ d, .mark (.delimiter d) ∈ ks → p d.name d.attrs) :
    ∀ c ∈ nodesEach bs, p c.name c.attrs := by
  induction h with
  | nil => exact fun _ hmem ↦ nomatch hmem
  | blank _ _ ih => exact ih fun d hd ↦ hp d (List.mem_cons_of_mem _ hd)
  | block hb _ ih =>
    rw [nodesEach, List.forall_mem_append]
    exact ⟨hb.forall_nodes fun d hd ↦ hp d (List.mem_append_left _ hd),
      ih fun d hd ↦ hp d (List.mem_append_right _ hd)⟩

end

/-! ### Trees that are read -/

/-- Every node that is read has a full name, attributes that a text can hold, and is tidy. -/
theorem nodes_of_parseChars {cs : List Char} {bs : List Block} (h : parseChars cs = .ok bs) :
    ∀ b ∈ nodesEach bs, BlockName.IsFull b.name.toList
      ∧ ((Json.object b.attrs).WellFormed ∧ (Json.object b.attrs).depth ≤ Json.maxDepth)
      ∧ b.IsTidy := by
  have hcuts := cuts_chunks_ofChars cs
  have hderives := parseChars_eq_ok_iff.1 h
  have htidy := hderives.isTidy hcuts.isChain
  have hnodes := hderives.forall_nodes (p := fun name attrs ↦ BlockName.IsFull name.toList
      ∧ (Json.object attrs).WellFormed ∧ (Json.object attrs).depth ≤ Json.maxDepth) fun d hd ↦ by
    obtain ⟨ds, rest, hscan⟩ := hcuts.exists_scan? hd
    exact ⟨Mark.isFull_of_scan? hscan, Mark.wellFormed_of_scan? hscan⟩
  intro b hb
  obtain ⟨hfull, hattrs⟩ := hnodes b hb
  exact ⟨hfull, hattrs, htidy b hb⟩

/-- Every tree that is read is canonical: each of its nodes, at any depth, has a full name, as many
placeholders as children, no fragment that is empty or next to another one, and the concatenation of
its fragments for its markup. -/
theorem isCanonical_of_parse {s : String} {bs : List Block} (h : parse s = .ok bs) :
    ∀ b ∈ nodesEach bs, BlockName.IsFull b.name.toList ∧ b.IsTidy := by
  intro b hb
  obtain ⟨hfull, -, htidy⟩ := nodes_of_parseChars h b hb
  exact ⟨hfull, htidy⟩

/-- A skipped comment in front of a child, and a blank between that and the closer. -/
theorem isCanonical_of_parse_skipped : ∃ bs,
    parse "\n<!-- wp:a -->b<!-- c --><!-- wp:d/e /--> <!-- /wp:core/a -->" = .ok bs
      ∧ (nodesEach bs).length = 2
      ∧ ∀ b ∈ nodesEach bs, BlockName.IsFull b.name.toList ∧ b.IsTidy := by
  have hskipped : StaysLiteral "b<!-- c -->".toList
      "<!-- wp:d/e /--> <!-- /wp:core/a -->".toList := by decide
  have hblank : Cuts " <!-- /wp:core/a -->".toList
      [.literal [' '], .mark (.delimiter ⟨.closer, "core/a", []⟩)] :=
    .literal (List.cons_ne_nil _ []) (by decide) Chunk.not_isLiteral_head? (.mark rfl .nil)
  have hinner : Cuts "<!-- wp:d/e /--> <!-- /wp:core/a -->".toList
      (.mark (.delimiter ⟨.void, "d/e", []⟩) :: _) :=
    .mark rfl hblank
  have houter : Cuts "<!-- wp:a -->b<!-- c --><!-- wp:d/e /--> <!-- /wp:core/a -->".toList
      (.mark (.delimiter ⟨.opener, "core/a", []⟩) :: .literal "b<!-- c -->".toList :: _) :=
    .mark rfl (.literal (by decide) hskipped Chunk.not_isLiteral_head? hinner)
  have hcuts : Cuts "\n<!-- wp:a -->b<!-- c --><!-- wp:d/e /--> <!-- /wp:core/a -->".toList
      (.literal ['\n'] :: _) :=
    .literal (List.cons_ne_nil _ []) (by decide) Chunk.not_isLiteral_head? houter
  have hparse : parse "\n<!-- wp:a -->b<!-- c --><!-- wp:d/e /--> <!-- /wp:core/a -->"
      = .ok [⟨"core/a", [], [leaf "d/e" [] ""], "b<!-- c --> ",
        [some "b<!-- c -->", none, some " "]⟩] := by
    rw [parse, parseChars_eq_ok_iff, hcuts.chunks_ofChars]
    exact .blank (by decide) (.block (.pair (.literal (by decide)
      (.block (.void "d/e" []) (.literal (by decide) .nil)))) .nil)
  exact ⟨_, hparse, rfl, isCanonical_of_parse hparse⟩

end Block

end PostBlocks
