import PostBlocks.Block.Nesting
import PostBlocks.Proofs.Block.Chunk
import PostBlocks.Proofs.Except

/-!
# The grammar of block markup

A document is a sequence of blocks with nothing but blank characters between them; a block is a
void, or an opener and a closer of one name with literal markup and blocks between them. The
derivations of this grammar (`Derives`, `DerivesDocument`) carry the tree they build.

Reading follows the grammar in both directions. What a derivation consumes, the reader consumes, and
it builds the same tree (`DerivesDocument.run`). What the reader has consumed at any moment derives
what it holds, open blocks included (`Nesting.Reads`), which one chunk keeps (`Nesting.Reads.step`)
and so a whole run (`Nesting.Reads.run`). Together, reading a text is deriving its chunks
(`parseChars_eq_ok_iff`), and as a text has one cut only, a text is a document in one way at most
(`parse_eq_ok_iff`).
-/

namespace PostBlocks

namespace Block

mutual

/-- Some chunks make up one block. -/
inductive Derives : List Chunk → Block → Prop
  | void (name : String) (attrs : Json.Fields) :
    Derives [.mark (.delimiter ⟨.void, name, attrs⟩)] (.leaf name attrs "")
  | pair {name : String} {attrs closing : Json.Fields} {ks : List Chunk} {children : List Block}
    {content : List (Option String)} : DerivesContent ks children content →
    Derives (.mark (.delimiter ⟨.opener, name, attrs⟩) :: ks
        ++ [.mark (.delimiter ⟨.closer, name, closing⟩)])
      ⟨name, attrs, children, String.join (content.filterMap id), content⟩

/-- Some chunks make up the content of a block. -/
inductive DerivesContent : List Chunk → List Block → List (Option String) → Prop
  | nil : DerivesContent [] [] []
  | literal {html : List Char} {ks : List Chunk} {children : List Block}
    {content : List (Option String)} (hne : html ≠ []) : DerivesContent ks children content →
    DerivesContent (.literal html :: ks) children (some (.ofList html) :: content)
  | block {js ks : List Chunk} {b : Block} {children : List Block}
    {content : List (Option String)} : Derives js b → DerivesContent ks children content →
    DerivesContent (js ++ ks) (b :: children) (none :: content)

end

/-- Some chunks make up a document. -/
inductive DerivesDocument : List Chunk → List Block → Prop
  | nil : DerivesDocument [] []
  | blank {html : List Char} {ks : List Chunk} {bs : List Block}
    (hblank : html.all Text.isBlank = true) : DerivesDocument ks bs →
    DerivesDocument (.literal html :: ks) bs
  | block {js ks : List Chunk} {b : Block} {bs : List Block} : Derives js b →
    DerivesDocument ks bs → DerivesDocument (js ++ ks) (b :: bs)

/-- Content is read one chunk after another, so derivations have to grow at their end. -/
theorem DerivesContent.append {js ks : List Chunk} {as bs : List Block}
    {content content' : List (Option String)} :
    DerivesContent js as content → DerivesContent ks bs content' →
      DerivesContent (js ++ ks) (as ++ bs) (content ++ content')
  | .nil, h' => h'
  | .literal hne h, h' => .literal hne (h.append h')
  | .block hb h, h' => by
    rw [List.append_assoc]
    exact .block hb (h.append h')

theorem DerivesDocument.append {js ks : List Chunk} {as bs : List Block}
    (h : DerivesDocument js as) (h' : DerivesDocument ks bs) :
    DerivesDocument (js ++ ks) (as ++ bs) := by
  induction h with
  | nil => exact h'
  | blank hblank _ ih => exact .blank hblank ih
  | block hb _ ih =>
    rw [List.append_assoc]
    exact .block hb ih

end Block

/-! ### Reading chunk by chunk -/

namespace Nesting

/-- One chunk, if it is no error. -/
def step? (n : Nesting) : Chunk → Option Nesting
  | .literal html => (n.literal 0 html).toOption
  | .mark (.delimiter d) => (n.delimiter 0 d).toOption
  | .mark (.malformed _) => none

/-- Chunks in order, as long as there is no error. -/
def run? (n : Nesting) (ks : List Chunk) : Option Nesting :=
  ks.foldlM step? n

/-- Chunks are read in two parts, the second from where the first one led. -/
theorem run?_append (n : Nesting) (js ks : List Chunk) :
    n.run? (js ++ ks) = (n.run? js).bind (·.run? ks) := by
  rw [run?, List.foldlM_append]
  rfl

theorem run?_cons (n : Nesting) (k : Chunk) (ks : List Chunk) :
    n.run? (k :: ks) = (n.step? k).bind (·.run? ks) :=
  rfl

/-- Where literal markup stands matters to its error only, and empty markup is no chunk. -/
theorem toOption_literal (n : Nesting) (offset : Nat) (html : List Char) :
    (n.literal offset html).toOption = n.run? (Chunk.ofLiteral html) := by
  cases html with
  | nil => rfl
  | cons c cs =>
    rw [Chunk.ofLiteral, run?_cons, step?]
    obtain ⟨_ | ⟨top, below⟩, bs⟩ := n
    · simp only [literal]
      split <;> rfl
    · rfl

theorem toOption_delimiter (n : Nesting) (offset : Nat) (d : Delimiter) :
    (n.delimiter offset d).toOption = n.step? (.mark (.delimiter d)) := by
  obtain ⟨_ | _ | _, name, attrs⟩ := d
  · rfl
  · obtain ⟨_ | ⟨top, below⟩, bs⟩ := n
    · rfl
    · simp only [delimiter, step?]
      split <;> rfl
  · rfl

/-- Reading a cut source is taking its chunks in order and being left with no open block; where the
chunks stand matters to errors only. -/
theorem toOption_read (n : Nesting) (offset : Nat) (tail : List Char) (ss : List Segment) :
    (n.read offset tail ss).toOption
      = (n.run? (Segments.chunks ⟨ss, tail⟩)).bind fun n ↦ n.finish.toOption := by
  induction ss generalizing n offset with
  | nil => rw [read, Except.toOption_bind, toOption_literal]; rfl
  | cons s ss ih =>
    obtain ⟨html, m, written⟩ := s
    rw [Segments.chunks_cons, run?_append, Option.bind_assoc, ← toOption_literal n offset html]
    cases m with
    | malformed name => cases n.literal offset html <;> rfl
    | delimiter d =>
      rw [read, Except.toOption_bind]
      refine congrArg _ (funext fun n' ↦ ?_)
      rw [Except.toOption_bind, toOption_delimiter, run?_cons, Option.bind_assoc]
      exact congrArg _ (funext fun n'' ↦ ih n'' _)

end Nesting

/-! ### What is derived is read -/

namespace Block

open Nesting

mutual

/-- A derived block is attached. -/
theorem Derives.run {js : List Chunk} {b : Block} (n : Nesting) :
    Derives js b → n.run? js = some (n.attach b)
  | .void name attrs => rfl
  | @Derives.pair name attrs closing ks children content h => by
    have hopen : n.step? (.mark (.delimiter ⟨.opener, name, attrs⟩))
        = some ⟨⟨name, attrs, [], []⟩ :: n.stack, n.blocks⟩ := rfl
    rw [List.cons_append, run?_cons, hopen, Option.bind_some, run?_append, h.run, Option.bind_some]
    simp [run?, step?, delimiter, OpenBlock.close, Except.toOption]

/-- Derived content is added to the innermost open block. -/
theorem DerivesContent.run {ks : List Chunk} {children : List Block}
    {content : List (Option String)} (top : OpenBlock) (below : List OpenBlock) (bs : List Block) :
    DerivesContent ks children content →
      run? ⟨top :: below, bs⟩ ks
        = some
          ⟨⟨top.name, top.attrs, top.children ++ children, top.content ++ content⟩ :: below, bs⟩
  | .nil => by simp [run?]
  | @DerivesContent.literal html ks children content hne h => by
    have hstep : step? ⟨top :: below, bs⟩ (.literal html)
        = some ⟨top.pushFragment html :: below, bs⟩ := by
      cases html with
      | nil => exact absurd rfl hne
      | cons c cs => rfl
    rw [run?_cons, hstep, Option.bind_some, h.run]
    simp [OpenBlock.pushFragment]
  | .block hb h => by
    rw [run?_append, hb.run, Option.bind_some, attach, h.run]
    simp [OpenBlock.pushChild]

end

/-- A derived document is read, block after block. -/
theorem DerivesDocument.run {ks : List Chunk} {bs : List Block} (h : DerivesDocument ks bs)
    (before : List Block) : run? ⟨[], before⟩ ks = some ⟨[], before ++ bs⟩ := by
  induction h generalizing before with
  | nil => rw [List.append_nil]; rfl
  | @blank html ks bs hblank _ ih =>
    have hstep : step? ⟨[], before⟩ (.literal html) = some ⟨[], before⟩ := by
      cases html with
      | nil => rfl
      | cons c cs => simp only [step?, literal, if_pos hblank]; rfl
    rw [run?_cons, hstep, Option.bind_some, ih]
  | block hb _ ih =>
    rw [run?_append, hb.run, Option.bind_some, attach, ih, List.append_assoc]
    rfl

/-! ### Delimiters that are derived -/

mutual

/-- No delimiter of a derived block has unreadable attributes. -/
theorem Derives.malformed_not_mem {name : String} {js : List Chunk} {b : Block} :
    Derives js b → Chunk.mark (.malformed name) ∉ js
  | .void _ _ => by simp
  | .pair h => by simp [h.malformed_not_mem]

theorem DerivesContent.malformed_not_mem {name : String} {ks : List Chunk} {children : List Block}
    {content : List (Option String)} :
    DerivesContent ks children content → Chunk.mark (.malformed name) ∉ ks
  | .nil => by simp
  | .literal _ h => by simp [h.malformed_not_mem]
  | .block hb h => by simp [hb.malformed_not_mem, h.malformed_not_mem]

end

/-- So a document is read without an error about attributes. -/
theorem DerivesDocument.malformed_not_mem {name : String} {ks : List Chunk} {bs : List Block}
    (h : DerivesDocument ks bs) : Chunk.mark (.malformed name) ∉ ks := by
  induction h with
  | nil => simp
  | blank _ _ ih => simp [ih]
  | block hb _ ih => simp [hb.malformed_not_mem, ih]

/-! ### Derived content -/

theorem countPlaceholders_some (html : String) (content : List (Option String)) :
    countPlaceholders (some html :: content) = countPlaceholders content := by
  simp [countPlaceholders]

theorem countPlaceholders_none (content : List (Option String)) :
    countPlaceholders (none :: content) = countPlaceholders content + 1 := by
  simp [countPlaceholders]

/-- Derived content has a placeholder a child. -/
theorem DerivesContent.countPlaceholders {ks : List Chunk} {children : List Block}
    {content : List (Option String)} : DerivesContent ks children content →
      countPlaceholders content = children.length
  | .nil => rfl
  | .literal _ h => by rw [countPlaceholders_some, h.countPlaceholders]
  | .block _ h => by rw [countPlaceholders_none, h.countPlaceholders, List.length_cons]

/-- Derived content has no empty fragment. -/
theorem DerivesContent.nonempty {ks : List Chunk} {children : List Block}
    {content : List (Option String)} : DerivesContent ks children content → some "" ∉ content
  | .nil => fun hmem ↦ nomatch hmem
  | .literal hne h => by
    intro hmem
    rcases List.mem_cons.1 hmem with heq | hmem
    · exact hne (String.ofList_eq_empty_iff.1 (Option.some.inj heq).symm)
    · exact h.nonempty hmem
  | .block _ h => by
    intro hmem
    rcases List.mem_cons.1 hmem with heq | hmem
    · cases heq
    · exact h.nonempty hmem

end Block

/-! ### What is read is derived -/

namespace Nesting

open Block

/-- These chunks have been read so far: the finished blocks are derived from the first of them, and
each open block has been opened and holds what is derived from the chunks since. -/
inductive Reads : List Chunk → Nesting → Prop
  | document {ks : List Chunk} {bs : List Block} : DerivesDocument ks bs → Reads ks ⟨[], bs⟩
  | inside {ks js : List Chunk} {name : String} {attrs : Json.Fields} {children : List Block}
    {content : List (Option String)} {below : List OpenBlock} {bs : List Block} :
    Reads ks ⟨below, bs⟩ → DerivesContent js children content →
    Reads (ks ++ .mark (.delimiter ⟨.opener, name, attrs⟩) :: js)
      ⟨⟨name, attrs, children, content⟩ :: below, bs⟩

/-- A block that has been completed belongs to the innermost open block, or else to the document. -/
theorem Reads.attach {ks js : List Chunk} {n : Nesting} {b : Block} (h : Reads ks n)
    (hb : Derives js b) : Reads (ks ++ js) (n.attach b) := by
  cases h with
  | document h =>
    have := h.append (.block hb .nil)
    rw [List.append_nil] at this
    exact .document this
  | inside h hcontent =>
    have := hcontent.append (.block hb .nil)
    rw [List.append_nil] at this
    rw [List.append_assoc, List.cons_append]
    exact .inside h this

/-- Literal markup is a fragment of the innermost open block. Outside of all blocks it has to be
blank and leaves nothing. -/
theorem Reads.literal {ks : List Chunk} {n n' : Nesting} {html : List Char} (h : Reads ks n)
    (hne : html ≠ []) (hn : n.step? (.literal html) = some n') :
    Reads (ks ++ [.literal html]) n' := by
  obtain ⟨c, cs, rfl⟩ := List.exists_cons_of_ne_nil hne
  cases h with
  | document h =>
    simp only [step?, Nesting.literal] at hn
    split at hn
    · next hblank =>
      cases hn
      have := h.append (.blank hblank .nil)
      rw [List.append_nil] at this
      exact .document this
    · cases hn
  | inside h hcontent =>
    cases hn
    have := hcontent.append (.literal hne .nil)
    rw [List.append_nil] at this
    rw [List.append_assoc, List.cons_append]
    exact .inside h this

/-- One more chunk is read. -/
theorem Reads.step {ks : List Chunk} {k : Chunk} {n n' : Nesting} (h : Reads ks n)
    (hne : ∀ html, k = .literal html → html ≠ []) (hn : n.step? k = some n') :
    Reads (ks ++ [k]) n' := by
  match k with
  | .literal html => exact h.literal (hne html rfl) hn
  | .mark (.malformed name) => cases hn
  | .mark (.delimiter ⟨.opener, name, attrs⟩) =>
    cases hn
    exact .inside h .nil
  | .mark (.delimiter ⟨.void, name, attrs⟩) =>
    cases hn
    exact h.attach (.void name attrs)
  | .mark (.delimiter ⟨.closer, name, attrs⟩) =>
    cases h with
    | document h => cases hn
    | inside h hcontent =>
      simp only [step?, delimiter] at hn
      -- a closer of another name is an error
      split at hn
      · next hname =>
        subst hname
        cases hn
        rw [List.append_assoc]
        exact h.attach (.pair hcontent)
      · cases hn

/-- Some more chunks are read. -/
theorem Reads.run {ks js : List Chunk} {n n' : Nesting} (h : Reads ks n)
    (hne : ∀ html, Chunk.literal html ∈ js → html ≠ []) (hn : n.run? js = some n') :
    Reads (ks ++ js) n' := by
  induction js generalizing ks n with
  | nil =>
    cases hn
    rwa [List.append_nil]
  | cons k js ih =>
    rw [run?_cons, Option.bind_eq_some_iff] at hn
    obtain ⟨n₁, hstep, hrun⟩ := hn
    have hk : Reads (ks ++ [k]) n₁ :=
      h.step (fun html heq ↦ hne html (heq ▸ List.mem_cons_self)) hstep
    have := ih hk (fun html hmem ↦ hne html (List.mem_cons_of_mem _ hmem)) hrun
    rwa [List.append_assoc] at this

/-- A source may end where no block is open, and then it is the finished blocks. -/
theorem finish_toOption_eq_some_iff {n : Nesting} {bs : List Block} :
    n.finish.toOption = some bs ↔ n = ⟨[], bs⟩ := by
  obtain ⟨_ | ⟨top, below⟩, bs'⟩ := n <;> simp [finish, Except.toOption]

end Nesting

/-! ### Reading is deriving -/

/-- A text is read as a document exactly when its chunks derive the document. -/
theorem Block.parseChars_eq_ok_iff {cs : List Char} {bs : List Block} :
    parseChars cs = .ok bs ↔ DerivesDocument (Segments.ofChars cs).chunks bs := by
  rw [← Except.toOption_eq_some_iff, parseChars, Nesting.toOption_read]
  change (Nesting.run? ⟨[], []⟩ (Segments.ofChars cs).chunks).bind _ = _ ↔ _
  rw [Option.bind_eq_some_iff]
  constructor
  · rintro ⟨n, hrun, hfinish⟩
    rw [Nesting.finish_toOption_eq_some_iff] at hfinish
    subst hfinish
    have hreads := (Nesting.Reads.document .nil).run (cuts_chunks_ofChars cs).literal_ne_nil hrun
    rw [List.nil_append] at hreads
    -- no block is left open, so what has been read is a document
    generalize (Segments.ofChars cs).chunks = ks at hreads ⊢
    cases hreads with
    | document h => exact h
  · intro h
    exact ⟨_, h.run [], Nesting.finish_toOption_eq_some_iff.2 rfl⟩

/-- Every source is cut in one way, and it is read as a document exactly when none of its delimiters
has unreadable attributes and its chunks derive the document. -/
theorem Block.parse_eq_ok_iff (source : String) :
    ∃ ks, (∀ js, Cuts source.toList js ↔ js = ks) ∧
      ∀ bs, parse source = .ok bs ↔
        (∀ name, Chunk.mark (.malformed name) ∉ ks) ∧ DerivesDocument ks bs := by
  refine ⟨(Segments.ofChars source.toList).chunks, fun js ↦ cuts_iff.trans eq_comm, fun bs ↦ ?_⟩
  rw [parse, parseChars_eq_ok_iff]
  constructor
  · intro h
    exact ⟨fun _ ↦ h.malformed_not_mem, h⟩
  · rintro ⟨-, h⟩
    exact h

end PostBlocks
