import Mathlib.Data.List.Forall2
import PostBlocks.Proofs.Block.Outline
import PostBlocks.Proofs.Text.Ends

/-!
# Outlines draw trees

A block stands at a path: its place among its siblings, behind the places of the blocks around it.
The lines of an outline are one for each path of the document, in order, and each is drawn from its
path alone: a cell for each block around, which tells whether that block has a sibling behind it,
and a connector, which tells the same of the block itself (`outlineEach_eq_map`). The width of the
cells is the depth of the block, and the depths of the blocks in order settle the shape of the tree
(`shapes_eq_of_depthsEach`), so outlines without line feeds in their labels tell shapes apart.

A path is never empty, and what is drawn from it is taken from its front, as outlines are written:
the outermost block gives the first cell, and that cell is the indent of all that is inside it
(`lead_cons`, `line_cons`). The paths of a document are exactly those at which it has a block
(`mem_pathsEach_zero_iff`), each of them once and in order (`pairwise_pathsEach`), so lines and
blocks correspond.

A label may hold anything but line feeds, even the characters of cells. The cells are told from it
all the same, since the connector between them starts with a character that no cell has
(`length_takeWhile_line`). With a line feed in its label, one block could be drawn as two.
-/

namespace PostBlocks

/-- A tree of which only the branching counts. -/
inductive Shape where
  | node (children : List Shape)

namespace Block

mutual

/-- The shape of a block. -/
def shape : Block → Shape
  | ⟨_, _, children, _, _⟩ => .node (shapes children)

/-- The shapes of sibling blocks. -/
def shapes : List Block → List Shape
  | [] => []
  | b :: bs => b.shape :: shapes bs

end

/-! ### Paths -/

/-- The block at a path. -/
def at? (bs : List Block) : List Nat → Option Block
  | [] => none
  | [i] => bs[i]?
  | i :: j :: path => bs[i]?.bind fun b ↦ at? b.children (j :: path)

/-- The path of the next sibling. -/
def next : List Nat → List Nat
  | [] => []
  | [i] => [i + 1]
  | i :: j :: path => i :: next (j :: path)

/-- The block at a path has a sibling behind it. -/
def hasLater (bs : List Block) (path : List Nat) : Bool :=
  (at? bs (next path)).isSome

mutual

/-- The paths of a block at a place and of everything inside it. -/
def paths (i : Nat) : Block → List (List Nat)
  | ⟨_, _, children, _, _⟩ => [i] :: (pathsEach 0 children).map (i :: ·)

/-- The paths of sibling blocks, the first of them at the given place, and of everything inside
them. -/
def pathsEach (i : Nat) : List Block → List (List Nat)
  | [] => []
  | b :: bs => paths i b ++ pathsEach (i + 1) bs

end

/-- The equation of `at?`, for any path that goes on behind its first place. -/
theorem at?_cons {bs : List Block} {path : List Nat} (i : Nat) (h : path ≠ []) :
    at? bs (i :: path) = bs[i]?.bind fun b ↦ at? b.children path := by
  cases path with
  | nil => exact absurd rfl h
  | cons j path => rw [at?]

theorem next_cons {path : List Nat} (i : Nat) (h : path ≠ []) :
    next (i :: path) = i :: next path := by
  cases path with
  | nil => exact absurd rfl h
  | cons j path => rw [next]

theorem next_ne_nil {path : List Nat} (h : path ≠ []) : next path ≠ [] := by
  match path, h with
  | [i], _ => simp [next]
  | i :: j :: path, _ => simp [next]

/-- Of the blocks at the top, all but the last have a sibling behind them. -/
theorem hasLater_singleton (bs : List Block) (i : Nat) :
    hasLater bs [i] = decide (i + 1 < bs.length) := by
  rw [hasLater, next, at?]
  exact Bool.eq_iff_iff.2 (by simp)

/-- A block inside another has its siblings there, so the blocks outside do not matter. -/
theorem hasLater_cons {bs : List Block} {b : Block} {i : Nat} {path : List Nat}
    (hb : bs[i]? = some b) (h : path ≠ []) :
    hasLater bs (i :: path) = hasLater b.children path := by
  rw [hasLater, next_cons i h, at?_cons i (next_ne_nil h), hb, Option.bind_some, hasLater]

mutual

theorem ne_nil_of_mem_paths (i : Nat) : ∀ b : Block, ∀ path ∈ paths i b, path ≠ []
  | ⟨_, _, children, _, _⟩, path, h => by
    rw [paths, List.mem_cons, List.mem_map] at h
    rcases h with rfl | ⟨_, -, rfl⟩ <;> exact List.cons_ne_nil _ _

/-- No path is empty, so `at?_cons` and `lead_cons` apply to what stands behind its first place. -/
theorem ne_nil_of_mem_pathsEach (i : Nat) : ∀ bs : List Block, ∀ path ∈ pathsEach i bs, path ≠ []
  | [], path, h => by
    rw [pathsEach] at h
    cases h
  | b :: bs, path, h => by
    rw [pathsEach, List.mem_append] at h
    exact h.elim (ne_nil_of_mem_paths i b path) (ne_nil_of_mem_pathsEach (i + 1) bs path)

end

/-! ### Lines -/

/-- What stands in front of a block's icon: a cell for each block around it, the outermost first,
and a connector. -/
def lead (bs : List Block) (path : List Nat) : List Char :=
  (List.range (path.length - 1)).flatMap
      (fun j ↦ bif hasLater bs (path.take (j + 1)) then "│ ".toList else "  ".toList)
    ++ bif hasLater bs path then "├─".toList else "└─".toList

/-- The line of the block at a path. -/
def line (bs : List Block) (path : List Nat) : List Char :=
  lead bs path ++ (at? bs path).elim [] fun b ↦
    ' ' :: (icon b.name).toList ++ ' ' :: label b.name b.attrs b.html

/-- At the top there is a connector and no cell. -/
theorem lead_singleton (bs : List Block) (i : Nat) :
    lead bs [i] = connector !hasLater bs [i] := by
  cases h : hasLater bs [i] <;> simp [lead, connector, h]

/-- Inside a block, that block's cell comes first. Going down this way is how an outline is written,
with the cells so far as its indent. -/
theorem lead_cons {bs : List Block} {b : Block} {i : Nat} {path : List Nat}
    (hb : bs[i]? = some b) (h : path ≠ []) :
    lead bs (i :: path) = cell (!hasLater bs [i]) ++ lead b.children path := by
  obtain ⟨j, path, rfl⟩ := List.exists_cons_of_ne_nil h
  have hcell : (bif hasLater bs [i] then "│ ".toList else "  ".toList)
      = cell !hasLater bs [i] := by
    cases hasLater bs [i] <;> rfl
  have hlater : ∀ q, hasLater bs (i :: j :: q) = hasLater b.children (j :: q) :=
    fun q ↦ hasLater_cons hb (List.cons_ne_nil j q)
  simp only [lead, List.length_cons, Nat.add_sub_cancel, List.range_succ_eq_map,
    List.flatMap_cons, List.flatMap_map, List.take_succ_cons, List.take_zero, hlater,
    List.append_assoc]
  rw [hcell]

theorem line_cons {bs : List Block} {b : Block} {i : Nat} {path : List Nat}
    (hb : bs[i]? = some b) (h : path ≠ []) :
    line bs (i :: path) = cell (!hasLater bs [i]) ++ line b.children path := by
  rw [line, lead_cons hb h, at?_cons i h, hb, Option.bind_some, List.append_assoc, line]

mutual

/-- The lines of a block at some place are drawn from the paths that start there. -/
theorem outline_eq_map {bs : List Block} {i : Nat} (indent : List Char) : ∀ b : Block,
    bs[i]? = some b → outline indent (!hasLater bs [i]) b
      = (paths i b).map fun path ↦ indent ++ line bs path
  | ⟨name, attrs, children, html, content⟩, hb => by
    have hinside := outlineEach_eq_map (indent ++ cell !hasLater bs [i]) [] children
    rw [outline, paths, List.map_cons, List.map_map, hinside]
    congr 1
    · rw [line, lead_singleton, at?, hb]
      simp
    · refine List.map_congr_left fun path hpath ↦ ?_
      rw [List.nil_append, Function.comp_apply,
        line_cons hb (ne_nil_of_mem_pathsEach 0 children path hpath), List.append_assoc]

/-- The lines of siblings behind some others are drawn from the paths that start at their places. -/
theorem outlineEach_eq_map (indent : List Char) (before : List Block) : ∀ bs : List Block,
    outlineEach indent bs
      = (pathsEach before.length bs).map fun path ↦ indent ++ line (before ++ bs) path
  | [] => rfl
  | b :: bs => by
    have hlast : bs.isEmpty = !hasLater (before ++ b :: bs) [before.length] := by
      rw [hasLater_singleton]
      cases bs <;> simp
    have hb : (before ++ b :: bs)[before.length]? = some b := by simp
    have hrest := outlineEach_eq_map indent (before ++ [b]) bs
    rw [List.length_append, List.length_singleton, List.append_assoc, List.singleton_append]
      at hrest
    rw [outlineEach, pathsEach, List.map_append, hlast, outline_eq_map indent b hb, hrest]

end

/-! ### Every block has a line -/

/-- Places behind the first sibling are counted from the next one. -/
theorem at?_cons_succ (b : Block) (bs : List Block) (i : Nat) (path : List Nat) :
    at? (b :: bs) ((i + 1) :: path) = at? bs (i :: path) := by
  cases path with
  | nil => rw [at?, at?, List.getElem?_cons_succ]
  | cons j path => rw [at?, at?, List.getElem?_cons_succ]

theorem at?_nil (path : List Nat) : at? [] path = none := by
  match path with
  | [] => rfl
  | [i] => simp [at?]
  | i :: j :: path => simp [at?]

mutual

/-- The paths of a block start with its place and go on as they do inside it. Siblings behind it
have no part in that, so there may be any. -/
theorem mem_paths_iff {i : Nat} {path : List Nat} (b : Block) (bs : List Block) :
    path ∈ paths i b ↔ ∃ q, path = i :: q ∧ (at? (b :: bs) (0 :: q)).isSome :=
  match b with
  | ⟨name, attrs, children, html, content⟩ => by
    rw [paths, List.mem_cons, List.mem_map]
    constructor
    · rintro (rfl | ⟨q, hq, rfl⟩)
      · exact ⟨[], rfl, rfl⟩
      · have hne := ne_nil_of_mem_pathsEach 0 children q hq
        obtain ⟨k, q, rfl, hat⟩ := (mem_pathsEach_iff children).1 hq
        refine ⟨_, rfl, ?_⟩
        rw [at?_cons 0 hne, Nat.zero_add]
        exact hat
    · rintro ⟨q, rfl, hat⟩
      match q with
      | [] => exact .inl rfl
      | k :: q =>
        exact .inr ⟨k :: q, (mem_pathsEach_iff children).2 ⟨k, q, by rw [Nat.zero_add], hat⟩, rfl⟩

/-- The paths of siblings, counted from the place of the first. -/
theorem mem_pathsEach_iff {i : Nat} {path : List Nat} : ∀ bs : List Block,
    path ∈ pathsEach i bs ↔ ∃ k q, path = (i + k) :: q ∧ (at? bs (k :: q)).isSome
  | [] => by simp [pathsEach, at?_nil]
  | b :: bs => by
    rw [pathsEach, List.mem_append, mem_paths_iff b bs, mem_pathsEach_iff bs]
    constructor
    · rintro (⟨q, rfl, hat⟩ | ⟨k, q, rfl, hat⟩)
      · exact ⟨0, q, rfl, hat⟩
      · exact ⟨k + 1, q, by rw [Nat.add_assoc, Nat.add_comm 1], by rwa [at?_cons_succ]⟩
    · rintro ⟨k, q, rfl, hat⟩
      cases k with
      | zero => exact .inl ⟨q, rfl, hat⟩
      | succ k =>
        exact .inr ⟨k, q, by rw [Nat.add_assoc, Nat.add_comm 1], by rwa [at?_cons_succ] at hat⟩

end

/-- The paths of a document are those at which it has a block. -/
theorem mem_pathsEach_zero_iff {bs : List Block} {path : List Nat} :
    path ∈ pathsEach 0 bs ↔ (at? bs path).isSome := by
  rw [mem_pathsEach_iff]
  constructor
  · rintro ⟨k, q, rfl, hat⟩
    rwa [Nat.zero_add]
  · intro hat
    match path with
    | [] => simp [at?] at hat
    | k :: q => exact ⟨k, q, by rw [Nat.zero_add], hat⟩

mutual

theorem pairwise_paths (i : Nat) : ∀ b : Block, (paths i b).Pairwise (· < ·)
  | ⟨_, _, children, _, _⟩ => by
    rw [paths, List.pairwise_cons, List.pairwise_map]
    constructor
    · intro path hpath
      obtain ⟨q, hq, rfl⟩ := List.mem_map.1 hpath
      obtain ⟨k, q, rfl, -⟩ := (mem_pathsEach_iff children).1 hq
      exact List.cons_lt_cons_self.2 (List.nil_lt_cons ..)
    · exact (pairwise_pathsEach 0 children).imp List.cons_lt_cons_self.2

/-- Paths come in the order in which a block stands in front of all that is inside it or behind
it. -/
theorem pairwise_pathsEach (i : Nat) : ∀ bs : List Block, (pathsEach i bs).Pairwise (· < ·)
  | [] => .nil
  | b :: bs => by
    rw [pathsEach, List.pairwise_append]
    refine ⟨pairwise_paths i b, pairwise_pathsEach (i + 1) bs, fun path hpath path' hpath' ↦ ?_⟩
    obtain ⟨q, rfl, -⟩ := (mem_paths_iff b bs).1 hpath
    obtain ⟨k, q', rfl, -⟩ := (mem_pathsEach_iff bs).1 hpath'
    exact List.cons_lt_cons_iff.2 (.inl (by omega))

end

/-! ### Shapes -/

mutual

/-- The depths of a block and of everything inside it. -/
def depths (n : Nat) : Block → List Nat
  | ⟨_, _, children, _, _⟩ => n :: depthsEach (n + 1) children

/-- The depths of sibling blocks and of everything inside them. -/
def depthsEach (n : Nat) : List Block → List Nat
  | [] => []
  | b :: bs => depths n b ++ depthsEach n bs

end

mutual

theorem map_length_paths (n i : Nat) : ∀ b : Block,
    (paths i b).map (fun path ↦ n + (path.length - 1)) = depths n b
  | ⟨_, _, children, _, _⟩ => by
    rw [paths, depths, List.map_cons, List.map_map, ← map_length_pathsEach (n + 1) 0 children]
    refine congrArg _ (List.map_congr_left fun path hpath ↦ ?_)
    have hpos := List.length_pos_iff.2 (ne_nil_of_mem_pathsEach 0 children path hpath)
    simp only [Function.comp_apply, List.length_cons]
    omega

/-- The depth of a block is one less than the length of its path, so the paths in order give the
depths in order. -/
theorem map_length_pathsEach (n i : Nat) : ∀ bs : List Block,
    (pathsEach i bs).map (fun path ↦ n + (path.length - 1)) = depthsEach n bs
  | [] => rfl
  | b :: bs => by
    rw [pathsEach, depthsEach, List.map_append, map_length_paths n i b,
      map_length_pathsEach n (i + 1) bs]

end

/-- The first depth behind a block is never more than its own, whether it is a sibling's or that of
what stands further out. -/
theorem head?_depthsEach_append {n : Nat} {rest : List Nat} (h : ∀ d ∈ rest.head?, d < n) :
    ∀ bs : List Block, ∀ d ∈ (depthsEach n bs ++ rest).head?, d < n + 1
  | [], d, hd => Nat.lt_succ_of_lt (h d hd)
  | ⟨_, _, children, _, _⟩ :: bs, d, hd => by
    rw [depthsEach, depths] at hd
    obtain rfl : n = d := by simpa using hd
    exact Nat.lt_succ_self n

mutual

/-- A block ends where the depths are no greater than its own, so its depths are told from what
follows. -/
theorem shape_eq_of_depths {n : Nat} {rest rest' : List Nat} (hrest : ∀ d ∈ rest.head?, d < n + 1)
    (hrest' : ∀ d ∈ rest'.head?, d < n + 1) : ∀ b b' : Block,
    depths n b ++ rest = depths n b' ++ rest' → b.shape = b'.shape ∧ rest = rest'
  | ⟨_, _, children, _, _⟩, ⟨_, _, children', _, _⟩, h => by
    rw [depths, depths, List.cons_append, List.cons_append, List.cons.injEq] at h
    obtain ⟨hshapes, heq⟩ := shapes_eq_of_depthsEach hrest hrest' children children' h.2
    exact ⟨by rw [shape, shape, hshapes], heq⟩

/-- Siblings end where a depth is less than theirs. Two lists of them with the same depths end at
the same time, as the first depth of another sibling would be theirs again. -/
theorem shapes_eq_of_depthsEach {n : Nat} {rest rest' : List Nat} (hrest : ∀ d ∈ rest.head?, d < n)
    (hrest' : ∀ d ∈ rest'.head?, d < n) : ∀ bs bs' : List Block,
    depthsEach n bs ++ rest = depthsEach n bs' ++ rest' → shapes bs = shapes bs' ∧ rest = rest'
  | [], [], h => ⟨rfl, h⟩
  | b :: bs, b' :: bs', h => by
    rw [depthsEach, depthsEach, List.append_assoc, List.append_assoc] at h
    obtain ⟨hshape, h⟩ := shape_eq_of_depths (head?_depthsEach_append hrest bs)
      (head?_depthsEach_append hrest' bs') b b' h
    obtain ⟨hshapes, heq⟩ := shapes_eq_of_depthsEach hrest hrest' bs bs' h
    exact ⟨by rw [shapes, shapes, hshape, hshapes], heq⟩
  | [], ⟨_, _, children, _, _⟩ :: bs', h => by
    rw [depthsEach, List.nil_append] at h
    exact absurd (hrest n (by simp [h, depthsEach, depths])) (Nat.lt_irrefl n)
  | ⟨_, _, children, _, _⟩ :: bs, [], h => by
    rw [depthsEach, depthsEach, List.nil_append] at h
    exact absurd (hrest' n (by simp [← h, depths])) (Nat.lt_irrefl n)

end

/-- A character of the cells in front of a block. -/
def isCellChar (c : Char) : Bool :=
  c == '│' || c == ' '

/-- The cells in front of a block are as many as the blocks around it. -/
theorem length_takeWhile_line (bs : List Block) (path : List Nat) :
    ((line bs path).takeWhile isCellChar).length = 2 * (path.length - 1) := by
  have hcell : ∀ later : Bool, ∀ c ∈ bif later then "│ ".toList else "  ".toList,
      isCellChar c = true := by
    intro later c hc
    cases later with
    | true =>
      obtain rfl | rfl : c = '│' ∨ c = ' ' := by simpa using hc
      · rfl
      · rfl
    | false =>
      obtain rfl : c = ' ' := by simpa using hc
      rfl
  have hlength : ∀ later : Bool,
      (bif later then "│ ".toList else "  ".toList : List Char).length = 2 := by
    rintro (_ | _) <;> rfl
  have hcells : ∀ c ∈ (List.range (path.length - 1)).flatMap
      (fun j ↦ bif hasLater bs (path.take (j + 1)) then "│ ".toList else "  ".toList),
      isCellChar c = true :=
    List.forall_mem_flatMap.2 fun _ _ ↦ hcell _
  rw [line, lead, List.append_assoc, List.takeWhile_append_of_pos hcells]
  -- the connector is no cell, so it ends them
  have hstop : ∀ later : Bool, ∀ rest : List Char,
      ((bif later then "├─".toList else "└─".toList) ++ rest).takeWhile isCellChar = [] := by
    rintro (_ | _) rest <;> rfl
  rw [hstop, List.append_nil, List.length_flatMap]
  simp only [hlength]
  simp [Nat.mul_comm]

/-- Lines without a line feed of their own are found again in the text that ends each of them with
one. -/
theorem eq_of_flatMap_feed : ∀ {lines lines' : List (List Char)},
    (∀ l ∈ lines, '\n' ∉ l) → (∀ l ∈ lines', '\n' ∉ l) →
    lines.flatMap (· ++ ['\n']) = lines'.flatMap (· ++ ['\n']) → lines = lines'
  | [], [], _, _, _ => rfl
  | [], l :: lines, _, _, h => by simp at h
  | l :: lines, [], _, _, h => by simp at h
  | l :: lines, l' :: lines', hl, hl', h => by
    obtain ⟨hline, hlines⟩ := List.forall_mem_cons.1 hl
    obtain ⟨hline', hlines'⟩ := List.forall_mem_cons.1 hl'
    simp only [List.flatMap_cons, List.append_assoc, List.singleton_append] at h
    have heq : l = l' := by
      have htake := congrArg (List.takeWhile (· ≠ '\n')) h
      rwa [Text.takeWhile_append_cons hline, Text.takeWhile_append_cons hline'] at htake
    subst heq
    rw [eq_of_flatMap_feed hlines hlines' (List.cons.inj (List.append_cancel_left h)).2]

/-- Outlines of labels without line feeds are the same only for trees of the same shape. -/
theorem shapes_eq_of_outlineEach {bs bs' : List Block}
    (h : outlineEach [] bs = outlineEach [] bs') : shapes bs = shapes bs' := by
  -- the depths can be read off the lines
  have hwidths : ∀ cs : List Block,
      (outlineEach [] cs).map (fun l ↦ (l.takeWhile isCellChar).length / 2) = depthsEach 0 cs := by
    intro cs
    rw [outlineEach_eq_map [] [], ← map_length_pathsEach 0 0, List.map_map]
    refine List.map_congr_left fun path _ ↦ ?_
    rw [Function.comp_apply, List.nil_append, List.nil_append, length_takeWhile_line]
    omega
  have hdepths : depthsEach 0 bs ++ [] = depthsEach 0 bs' ++ [] := by
    rw [List.append_nil, List.append_nil, ← hwidths, ← hwidths, h]
  exact (shapes_eq_of_depthsEach (by simp) (by simp) bs bs' hdepths).1

/-- No label in a document has a line feed. -/
def HasPlainLabels (bs : List Block) : Prop :=
  ∀ b ∈ nodesEach bs, '\n' ∉ label b.name b.attrs b.html

/-- Of all that stands in a line, only the label comes from the document. -/
theorem HasPlainLabels.feed_not_mem {bs : List Block} (h : HasPlainLabels bs) :
    ∀ l ∈ outlineHeader bs :: outlineEach [] bs, '\n' ∉ l := by
  have hlines := forall₂_outlineEach (List.not_mem_nil : '\n' ∉ []) bs
  exact List.forall_mem_cons.2 ⟨feed_not_mem_outlineHeader bs, (forall_feed_not_mem_iff hlines).2 h⟩

/-- An outline of labels without line feeds draws the tree: behind its header it has a line for each
path of the document, and these are in order, a block in front of all inside it and behind it. The
line of a block starts with two characters for each block around it, which tell whether that block
has a sibling behind it, and a connector, which tells the same of the block. So two such outlines
are the same only if the trees have the same shape. -/
theorem documentOutline_draws {bs : List Block} (h : HasPlainLabels bs) :
    (∃ lines, (∀ l ∈ outlineHeader bs :: lines, '\n' ∉ l)
        ∧ (documentOutline bs).toList = (outlineHeader bs :: lines).flatMap (· ++ ['\n'])
        ∧ List.Forall₂ (fun path line ↦ ∃ b, at? bs path = some b
          ∧ line = lead bs path ++ ' ' :: (icon b.name).toList
            ++ ' ' :: label b.name b.attrs b.html) (pathsEach 0 bs) lines)
      ∧ (∀ path, path ∈ pathsEach 0 bs ↔ (at? bs path).isSome)
      ∧ (pathsEach 0 bs).Pairwise (· < ·)
      ∧ ∀ bs', HasPlainLabels bs' → documentOutline bs = documentOutline bs' →
        shapes bs = shapes bs' := by
  refine ⟨⟨outlineEach [] bs, h.feed_not_mem, toList_documentOutline bs, ?_⟩,
    fun _ ↦ mem_pathsEach_zero_iff, pairwise_pathsEach 0 bs, fun bs' h' heq ↦ ?_⟩
  · rw [outlineEach_eq_map [] [], List.forall₂_map_right_iff]
    refine List.forall₂_same.2 fun path hpath ↦ ?_
    obtain ⟨b, hb⟩ := Option.isSome_iff_exists.1 (mem_pathsEach_zero_iff.1 hpath)
    exact ⟨b, hb, by simp [line, hb]⟩
  · have htext := congrArg String.toList heq
    rw [toList_documentOutline, toList_documentOutline] at htext
    have hlines := eq_of_flatMap_feed h.feed_not_mem h'.feed_not_mem htext
    exact shapes_eq_of_outlineEach (List.cons.inj hlines).2

/-- A paragraph inside another is not drawn like one behind it. -/
theorem documentOutline_draws_nested :
    documentOutline [⟨"core/quote", [], [⟨"core/paragraph", [], [leaf "core/paragraph" [] "b"],
        "<p>a</p>", []⟩], "", []⟩]
      ≠ documentOutline [⟨"core/quote", [], [leaf "core/paragraph" [] "<p>a</p>",
        leaf "core/paragraph" [] "b"], "", []⟩] := by
  intro heq
  have hshapes := (documentOutline_draws (by unfold HasPlainLabels; decide)).2.2.2 _
    (by unfold HasPlainLabels; decide) heq
  simp [shapes, shape, leaf] at hshapes

end Block

end PostBlocks
