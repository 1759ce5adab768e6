import PostBlocks.Proofs.Block.Canonical

/-!
# Writing chunks

When is a text cut into the chunks it was written from? Each delimiter has to be read as it was
written (`Chunk.IsStandard`), and literal markup must not turn into a delimiter: none may stand in
it, and where it opens attributes without closing them, nothing written behind it may close them
(`Chunk.IsSettled`). Under these two conditions it is (`cuts_flatMap_write`).

The chunks of every text are settled (`Cuts.isSettled`), and so they stay when delimiters are
dropped or change to others with the same attributes or none (`Thins`). That is all that happens to
them when the tree they derive is written out again (`DerivesDocument.thins`).
-/

namespace PostBlocks

open Mark

namespace Chunk

/-- A chunk in which no attributes can end. -/
def IsPlain : Chunk → Prop
  | literal html => splitAttributes? html = none
  | mark m => ∀ d, m = .delimiter d → d.attrs = []

/-- Literal markup starts a delimiter nowhere, whatever delimiter follows it; if it opens
attributes, no chunk behind it can end them. -/
def StaysOpen (html : List Char) (ks : List Chunk) : Prop :=
  ∀ ds, ds <:+ html → ds ≠ [] →
    scan? ds = none ∧ (OpensAttributes ds → ∀ k ∈ ks, k.IsPlain)

/-- All literal markup among some chunks stays literal. -/
def IsSettled : List Chunk → Prop
  | [] => True
  | literal html :: ks => StaysOpen html ks ∧ IsSettled ks
  | mark _ :: ks => IsSettled ks

/-- A chunk that can be read back as it is written. -/
def IsStandard : Chunk → Prop
  | literal html => html ≠ []
  | mark (.delimiter d) => BlockName.IsFull d.name.toList ∧ Attributes.IsRepresentable d.attrs
      ∧ (d.kind = .closer → d.attrs = [])
  | mark (.malformed _) => False

theorem scan?_write {m : Mark} (h : (mark m).IsStandard) (rest : List Char) :
    scan? ((mark m).write ++ rest) = some (m, rest) := by
  match m, h with
  | .delimiter _, ⟨hname, hattrs, hcloser⟩ => exact Mark.scan?_write hname hattrs hcloser rest

/-! ### Settled chunks are read back -/

theorem splitAttributes?_append_of_not_mem {cs : List Char} (h : '}' ∉ cs) (rest : List Char) :
    splitAttributes? (cs ++ rest) = none ↔ splitAttributes? rest = none := by
  induction cs with
  | nil => rfl
  | cons c cs ih =>
    simp only [List.mem_cons, not_or] at h
    rw [List.cons_append, splitAttributes?, if_neg (Ne.symm h.1), Option.map_eq_none_iff, ih h.2]

/-- A delimiter without attributes has no brace. -/
theorem not_mem_write {d : Delimiter} (hname : BlockName.IsFull d.name.toList) (h : d.attrs = []) :
    '}' ∉ d.write := by
  obtain ⟨-, -, hchars⟩ := BlockName.full_short hname
  have hshort : '}' ∉ (BlockName.short d.name).toList := fun hmem ↦
    absurd (hchars _ hmem) (by decide)
  obtain ⟨_ | _ | _, name, attrs⟩ := d <;> obtain rfl : attrs = [] := h <;>
    simp_all [Delimiter.write, Delimiter.writeAttrs]

/-- What follows literal markup is nothing or a delimiter. -/
theorem flatMap_write_eq {ks : List Chunk} (hhead : ∀ k ∈ ks.head?, ¬k.IsLiteral)
    (hstd : ∀ k ∈ ks, k.IsStandard) :
    ks = [] ∨ ∃ t, ks.flatMap write = '<' :: t := by
  match ks with
  | [] => exact .inl rfl
  | literal html :: ks => exact absurd trivial (hhead _ rfl)
  | mark (.malformed name) :: ks => exact (hstd _ List.mem_cons_self).elim
  | mark (.delimiter d) :: ks =>
    obtain ⟨cs, hcs⟩ := d.exists_write_eq
    exact .inr ⟨_, by rw [List.flatMap_cons, write, hcs, List.cons_append]⟩

/-- No attributes end in plain chunks, written one after another. -/
theorem splitAttributes?_flatMap_write {ks : List Chunk} (hchain : ks.IsChain Adjoins)
    (hstd : ∀ k ∈ ks, k.IsStandard) (hplain : ∀ k ∈ ks, k.IsPlain) :
    splitAttributes? (ks.flatMap write) = none := by
  induction ks with
  | nil => rfl
  | cons k ks ih =>
    obtain ⟨hhead, htail⟩ := List.isChain_cons.1 hchain
    obtain ⟨hk, hks⟩ := List.forall_mem_cons.1 hstd
    obtain ⟨hkplain, hksplain⟩ := List.forall_mem_cons.1 hplain
    have hrest := ih htail hks hksplain
    rw [List.flatMap_cons]
    match k with
    | literal html =>
      -- the next delimiter begins with a `<`, and no attributes end across one
      rcases flatMap_write_eq (fun j hj hlit ↦ hhead j hj ⟨trivial, hlit⟩) hks with rfl | ⟨t, ht⟩
      · rw [List.flatMap_nil, List.append_nil]
        exact hkplain
      · rw [ht] at hrest ⊢
        exact splitAttributes?_append_lt_eq_none_iff.2 ⟨hkplain, hrest⟩
    | mark (.malformed name) => exact hk.elim
    | mark (.delimiter d) =>
      exact (splitAttributes?_append_of_not_mem (not_mem_write hk.1 (hkplain d rfl)) _).2 hrest

/-- What is written is cut into the chunks it was written from. -/
theorem cuts_flatMap_write {ks : List Chunk} (hchain : ks.IsChain Adjoins)
    (hstd : ∀ k ∈ ks, k.IsStandard) (hsettled : IsSettled ks) : Cuts (ks.flatMap write) ks := by
  induction ks with
  | nil => exact .nil
  | cons k ks ih =>
    obtain ⟨hhead, htail⟩ := List.isChain_cons.1 hchain
    obtain ⟨hk, hks⟩ := List.forall_mem_cons.1 hstd
    rw [List.flatMap_cons]
    cases k with
    | mark m => exact .mark (scan?_write hk _) (ih htail hks hsettled)
    | literal html =>
      have hnext : ∀ j ∈ ks.head?, ¬j.IsLiteral := fun j hj hlit ↦ hhead j hj ⟨trivial, hlit⟩
      refine .literal hk (fun ds hds hne ↦ ?_) hnext (ih htail hks hsettled.2)
      obtain ⟨hscan, hopen⟩ := hsettled.1 ds hds hne
      -- behind the markup is the end of the text or a delimiter
      rcases flatMap_write_eq hnext hks with rfl | ⟨t, ht⟩
      · rwa [List.flatMap_nil, List.append_nil]
      · rw [ht]
        refine (scan?_append_eq_none_iff hne).2 ⟨hscan, fun h ↦ ?_⟩
        rw [← ht]
        exact splitAttributes?_flatMap_write htail hks (hopen h)

end Chunk

/-! ### The chunks of a text are settled -/

/-- Where no attributes end in a text, none end in its chunks. -/
theorem Cuts.isPlain {cs : List Char} {ks : List Chunk} (h : Cuts cs ks)
    (hcs : splitAttributes? cs = none) : ∀ k ∈ ks, k.IsPlain := by
  induction h with
  | nil => exact fun _ hk ↦ nomatch hk
  | mark h _ ih =>
    obtain ⟨taken, -, rfl⟩ := suffix_scan? h
    refine List.forall_mem_cons.2 ⟨?_, ih (splitAttributes?_eq_none_of_append hcs).2⟩
    rintro d rfl
    exact attrs_eq_nil_of_scan? h hcs
  | literal _ _ _ _ ih =>
    obtain ⟨hhtml, hrest⟩ := splitAttributes?_eq_none_of_append hcs
    exact List.forall_mem_cons.2 ⟨hhtml, ih hrest⟩

/-- What follows literal markup in a text is nothing or a delimiter. -/
theorem Cuts.eq_nil_or_exists_eq {cs : List Char} {ks : List Chunk} (h : Cuts cs ks)
    (hhead : ∀ k ∈ ks.head?, ¬k.IsLiteral) : cs = [] ∧ ks = [] ∨ ∃ t, cs = '<' :: t := by
  cases h with
  | nil => exact .inl ⟨rfl, rfl⟩
  | mark h _ =>
    obtain ⟨t, rfl⟩ := prefix_of_scan? h
    exact .inr ⟨_, rfl⟩
  | literal => exact absurd trivial (hhead _ rfl)

/-- The chunks of a text are settled. -/
theorem Cuts.isSettled {cs : List Char} {ks : List Chunk} (h : Cuts cs ks) :
    Chunk.IsSettled ks := by
  induction h with
  | nil => exact trivial
  | mark _ _ ih => exact ih
  | literal _ hstays hnext hrest ih =>
    refine ⟨fun ds hds hne ↦ ?_, ih⟩
    have hscan := hstays ds hds hne
    rcases hrest.eq_nil_or_exists_eq hnext with ⟨rfl, rfl⟩ | ⟨t, rfl⟩
    · rw [List.append_nil] at hscan
      exact ⟨hscan, fun _ _ hk ↦ nomatch hk⟩
    · obtain ⟨hscan, hopen⟩ := (scan?_append_eq_none_iff hne).1 hscan
      exact ⟨hscan, fun h ↦ hrest.isPlain (hopen h)⟩

/-- Markup without the start of a comment stays literal in front of anything. -/
theorem Chunk.staysOpen_of_no_comment {html : List Char} (h : ¬commentOpen <:+: html)
    (ks : List Chunk) : StaysOpen html ks := by
  intro ds hds _
  have hheader : header? ds = none := header?_eq_none fun hopen ↦
    h (hopen.isInfix.trans hds.isInfix)
  refine ⟨by rw [scan?_eq, hheader, Option.bind_none], ?_⟩
  rintro ⟨_, _, _, hsome⟩
  rw [hheader] at hsome
  cases hsome

/-- Chunks are settled when no literal markup among them has the start of a comment. -/
theorem Chunk.isSettled_of_no_comment {ks : List Chunk}
    (h : ∀ html, literal html ∈ ks → ¬commentOpen <:+: html) : IsSettled ks := by
  induction ks with
  | nil => exact trivial
  | cons k ks ih =>
    have hks := ih fun html hmem ↦ h html (List.mem_cons_of_mem _ hmem)
    cases k with
    | literal html => exact ⟨staysOpen_of_no_comment (h html List.mem_cons_self) ks, hks⟩
    | mark m => exact hks

/-! ### Thinning -/

/-- Chunks from others: all literal markup is there in order, but for some that is dropped, and each
delimiter stands for one with the same attributes, or has none. -/
inductive Thins : List Chunk → List Chunk → Prop
  | nil : Thins [] []
  | literal {ks ks' : List Chunk} (html : List Char) :
    Thins ks ks' → Thins (.literal html :: ks) (.literal html :: ks')
  | delimiter {ks ks' : List Chunk} {d d' : Delimiter} (h : d'.attrs = d.attrs ∨ d'.attrs = []) :
    Thins ks ks' → Thins (.mark (.delimiter d) :: ks) (.mark (.delimiter d') :: ks')
  | drop {ks ks' : List Chunk} (k : Chunk) : Thins ks ks' → Thins (k :: ks) ks'

namespace Thins

theorem append {js js' ks ks' : List Chunk} (h : Thins js js') (h' : Thins ks ks') :
    Thins (js ++ ks) (js' ++ ks') := by
  induction h with
  | nil => exact h'
  | literal html _ ih => exact .literal html ih
  | delimiter h _ ih => exact .delimiter h ih
  | drop k _ ih => exact .drop k ih

/-- Thinning adds no literal markup and no attributes, so nothing new that can end some. -/
theorem isPlain {ks ks' : List Chunk} (h : Thins ks ks') (hks : ∀ k ∈ ks, k.IsPlain) :
    ∀ k ∈ ks', k.IsPlain := by
  induction h with
  | nil => exact hks
  | literal html _ ih =>
    obtain ⟨hk, hks⟩ := List.forall_mem_cons.1 hks
    exact List.forall_mem_cons.2 ⟨hk, ih hks⟩
  | @delimiter _ _ d d' h _ ih =>
    obtain ⟨hk, hks⟩ := List.forall_mem_cons.1 hks
    refine List.forall_mem_cons.2 ⟨?_, ih hks⟩
    rintro _ ⟨⟩
    rcases h with h | h
    · rw [h]
      exact hk d rfl
    · exact h
  | drop k _ ih => exact ih (List.forall_mem_cons.1 hks).2

/-- Literal markup stays literal when the chunks around it are thinned. -/
theorem isSettled {ks ks' : List Chunk} (h : Thins ks ks') (hks : Chunk.IsSettled ks) :
    Chunk.IsSettled ks' := by
  induction h with
  | nil => exact trivial
  | literal html h ih =>
    refine ⟨fun ds hds hne ↦ ?_, ih hks.2⟩
    obtain ⟨hscan, hopen⟩ := hks.1 ds hds hne
    exact ⟨hscan, fun hds ↦ h.isPlain (hopen hds)⟩
  | delimiter _ _ ih => exact ih hks
  | drop k _ ih =>
    cases k with
    | literal html => exact ih hks.2
    | mark m => exact ih hks

end Thins

namespace Block

mutual

/-- A derived block is written as its chunks, thinned: closers lose their attributes, and an opener
with nothing in front of its closer becomes a void. -/
theorem Derives.thins {ks : List Chunk} {b : Block} : Derives ks b → Thins ks b.chunks
  | .void name attrs => .delimiter (.inl rfl) .nil
  | @Derives.pair name attrs closing ks children content h => by
    have hcontent := h.thins
    rw [chunks]
    split
    · next hnil =>
      -- nothing between opener and closer: the opener is written as a void
      obtain rfl := List.isEmpty_iff.1 hnil
      cases h with
      | nil => exact .delimiter (.inl rfl) (.drop _ .nil)
    · exact .delimiter (.inl rfl) (hcontent.append (.delimiter (.inr rfl) .nil))

theorem DerivesContent.thins {ks : List Chunk} {children : List Block}
    {content : List (Option String)} :
    DerivesContent ks children content → Thins ks (weave content (chunksEach children))
  | .nil => .nil
  | .literal _ h => by
    rw [weave, String.toList_ofList]
    exact .literal _ h.thins
  | .block hb h => hb.thins.append h.thins

end

/-- A derived document is written as its chunks, thinned: markup outside of all blocks is
dropped. -/
theorem DerivesDocument.thins {ks : List Chunk} {bs : List Block} (h : DerivesDocument ks bs) :
    Thins ks (bs.flatMap chunks) := by
  induction h with
  | nil => exact .nil
  | blank _ _ ih => exact .drop _ ih
  | block hb _ ih => exact hb.thins.append ih

/-! ### The chunks of a tree -/

/-- What holds of the fragments and delimiters of all nodes holds of all chunks. -/
theorem forall_mem_weave {p : Chunk → Prop} {content : List (Option String)} {bs : List Block}
    (hcontent : ∀ html, some html ∈ content → p (.literal html.toList))
    (hbs : ∀ b ∈ bs, ∀ k ∈ b.chunks, p k) : ∀ k ∈ weave content (chunksEach bs), p k := by
  induction content generalizing bs with
  | nil => exact fun _ hk ↦ nomatch hk
  | cons f content ih =>
    have hcontent' := fun html hmem ↦ hcontent html (List.mem_cons_of_mem _ hmem)
    cases f with
    | some html =>
      rw [weave]
      exact List.forall_mem_cons.2 ⟨hcontent html List.mem_cons_self, ih hcontent' hbs⟩
    | none =>
      cases bs with
      | nil => exact ih hcontent' hbs
      | cons b bs =>
        obtain ⟨hb, hbs⟩ := List.forall_mem_cons.1 hbs
        rw [chunksEach, weave, List.forall_mem_append]
        exact ⟨hb, ih hcontent' hbs⟩

mutual

/-- Chunks of a block are fragments and delimiters of its nodes. What holds of all those holds of
the chunks. -/
theorem forall_mem_chunks {p : Chunk → Prop} : ∀ b : Block,
    (∀ c ∈ b.nodes, (∀ html, some html ∈ c.content → p (.literal html.toList))
      ∧ (∀ kind, kind ≠ .closer → p (.mark (.delimiter ⟨kind, c.name, c.attrs⟩)))
      ∧ p (.mark (.delimiter ⟨.closer, c.name, []⟩))) → ∀ k ∈ b.chunks, p k
  | ⟨name, attrs, children, html, content⟩, h => by
    rw [nodes, List.forall_mem_cons] at h
    obtain ⟨⟨hcontent, hstart, hcloser⟩, hchildren⟩ := h
    have hweave := forall_mem_weave hcontent (forall_mem_chunksEach children hchildren)
    rw [chunks]
    split
    · exact List.forall_mem_singleton.2 (hstart .void (by decide))
    · rw [List.cons_append, List.forall_mem_cons, List.forall_mem_append]
      exact ⟨hstart .opener (by decide), hweave, List.forall_mem_singleton.2 hcloser⟩

theorem forall_mem_chunksEach {p : Chunk → Prop} : ∀ bs : List Block,
    (∀ c ∈ nodesEach bs, (∀ html, some html ∈ c.content → p (.literal html.toList))
      ∧ (∀ kind, kind ≠ .closer → p (.mark (.delimiter ⟨kind, c.name, c.attrs⟩)))
      ∧ p (.mark (.delimiter ⟨.closer, c.name, []⟩))) → ∀ b ∈ bs, ∀ k ∈ b.chunks, p k
  | [], _ => fun _ hb ↦ nomatch hb
  | b :: bs, h => by
    rw [nodesEach, List.forall_mem_append] at h
    exact List.forall_mem_cons.2 ⟨forall_mem_chunks b h.1, forall_mem_chunksEach bs h.2⟩

end

/-- The chunks of a writable document are standard. -/
theorem isStandard_chunks {bs : List Block} (h : ∀ c ∈ nodesEach bs, c.IsWritable) :
    ∀ k ∈ bs.flatMap chunks, k.IsStandard := by
  intro k hk
  obtain ⟨b, hb, hk⟩ := List.mem_flatMap.1 hk
  refine forall_mem_chunksEach bs (fun c hc ↦
    ⟨fun html hhtml ↦ ?_, fun kind hkind ↦ ?_, ?_⟩) b hb k hk
  · exact fun hnil ↦ (h c hc).tidy.nonempty (String.toList_eq_nil_iff.1 hnil ▸ hhtml)
  · exact ⟨(h c hc).name, (h c hc).attrs, fun hcloser ↦ absurd hcloser hkind⟩
  · exact ⟨(h c hc).name, Attributes.isRepresentable_nil, fun _ ↦ rfl⟩

/-- Chunks of blocks may stand next to anything. -/
theorem isChain_flatMap_chunks {bs : List Block} (h : ∀ b ∈ bs, b.chunks.IsChain Chunk.Adjoins) :
    (bs.flatMap chunks).IsChain Chunk.Adjoins := by
  induction bs with
  | nil => exact .nil
  | cons b bs ih =>
    obtain ⟨hb, hbs⟩ := List.forall_mem_cons.1 h
    obtain ⟨-, -, -, hlast⟩ := b.exists_chunks_eq
    exact List.isChain_append.2 ⟨hb, ih hbs, fun j hj _ _ hlit ↦ hlast j hj hlit.1⟩

/-- Woven content has no two pieces of literal markup side by side: its fragments have placeholders
between them, and a block starts and ends with a delimiter. -/
theorem isChain_weave {content : List (Option String)} {bs : List Block}
    (hcontent : content.IsChain fun f g ↦ f = none ∨ g = none)
    (hcount : countPlaceholders content = bs.length)
    (h : ∀ b ∈ bs, b.chunks.IsChain Chunk.Adjoins) :
    (weave content (chunksEach bs)).IsChain Chunk.Adjoins := by
  induction content generalizing bs with
  | nil => exact .nil
  | cons f content ih =>
    obtain ⟨hhead, htail⟩ := List.isChain_cons.1 hcontent
    cases f with
    | some html =>
      rw [countPlaceholders_some] at hcount
      rw [weave]
      refine List.isChain_cons.2 ⟨fun k hk hlit ↦ ?_, ih htail hcount h⟩
      -- a placeholder follows, and its block starts with a delimiter
      match content, bs, hhead, hcount with
      | [], _, _, _ => cases hk
      | some html' :: content, _, hhead, _ =>
        rcases hhead _ rfl with heq | heq <;> cases heq
      | none :: content, [], _, hcount =>
        rw [countPlaceholders_none] at hcount
        cases hcount
      | none :: content, b :: bs, _, _ =>
        obtain ⟨m, ks, hb, -⟩ := b.exists_chunks_eq
        rw [chunksEach, weave, hb] at hk
        cases hk
        exact hlit.2
    | none =>
      rw [countPlaceholders_none] at hcount
      cases bs with
      | nil => cases hcount
      | cons b bs =>
        obtain ⟨hb, hbs⟩ := List.forall_mem_cons.1 h
        obtain ⟨-, -, -, hlast⟩ := b.exists_chunks_eq
        rw [chunksEach, weave]
        exact List.isChain_append.2
          ⟨hb, ih htail (Nat.succ.inj hcount) hbs, fun j hj _ _ hlit ↦ hlast j hj hlit.1⟩

mutual

/-- No two pieces of literal markup touch among the chunks of a tidy block. -/
theorem isChain_chunks : ∀ b : Block, (∀ c ∈ b.nodes, c.IsTidy) → b.chunks.IsChain Chunk.Adjoins
  | ⟨name, attrs, children, html, content⟩, h => by
    rw [nodes, List.forall_mem_cons] at h
    have hweave := isChain_weave h.1.separated h.1.placeholders (isChain_chunksEach children h.2)
    rw [chunks]
    split
    · exact .singleton _
    · refine List.isChain_append.2 ⟨List.isChain_cons.2 ⟨fun _ _ hlit ↦ hlit.1, hweave⟩,
        .singleton _, ?_⟩
      rintro j - k ⟨⟩ hlit
      exact hlit.2

theorem isChain_chunksEach : ∀ bs : List Block, (∀ c ∈ nodesEach bs, c.IsTidy) →
    ∀ b ∈ bs, b.chunks.IsChain Chunk.Adjoins
  | [], _ => fun _ hb ↦ nomatch hb
  | b :: bs, h => by
    rw [nodesEach, List.forall_mem_append] at h
    exact List.forall_mem_cons.2 ⟨isChain_chunks b h.1, isChain_chunksEach bs h.2⟩

end

/-- A writable document whose literal markup is settled is written and read back. -/
theorem cuts_chunks {bs : List Block} (h : ∀ c ∈ nodesEach bs, c.IsWritable)
    (hsettled : Chunk.IsSettled (bs.flatMap chunks)) :
    Cuts ((bs.flatMap chunks).flatMap Chunk.write) (bs.flatMap chunks) :=
  Chunk.cuts_flatMap_write
    (isChain_flatMap_chunks (isChain_chunksEach bs fun c hc ↦ (h c hc).tidy))
    (isStandard_chunks h) hsettled

end Block

end PostBlocks
