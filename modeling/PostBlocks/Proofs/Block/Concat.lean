import PostBlocks.Proofs.Block.Extend
import PostBlocks.Proofs.Block.Canonical

/-!
# Documents one after another

Two documents one after the other are cut where each is cut alone, unless a comment of the first
leaves its attributes open and the second ends them (`Cuts.append`); and then the trees follow one
another (`DerivesDocument.joins`). Nothing less will do. What a document says is its tree spelled
out from the left (`DerivesDocument.spelling`), so where the trees follow one another the chunks of
the first document are read again, and what its comments leave open stays open
(`Cuts.leavesOpen_append`). Both directions make up `Block.parse_append_iff`.
-/

namespace PostBlocks

/-! ### Cutting one text after another -/

/-- Blank markup starts no delimiter. -/
theorem staysLiteral_of_blank {html : List Char} (h : html.all Text.isBlank = true)
    (rest : List Char) : StaysLiteral html rest := by
  rintro ds hds hne
  obtain ⟨d, ds, rfl⟩ := List.exists_cons_of_ne_nil hne
  refine Option.eq_none_iff_forall_ne_some.2 fun x hx ↦ ?_
  obtain ⟨cs, hcs⟩ := Mark.prefix_of_scan? hx
  obtain ⟨rfl, -⟩ := List.cons.inj hcs
  exact absurd (List.all_eq_true.1 h _ (hds.subset List.mem_cons_self)) (by decide)

/-- A text that ends a text of two parts ends the second one or starts inside the first. -/
theorem suffix_or_of_suffix_append {ds html rest : List Char} (h : ds <:+ html ++ rest) :
    ds <:+ rest ∨ ∃ es, es <:+ html ∧ es ≠ [] ∧ ds = es ++ rest := by
  rcases List.suffix_or_suffix_of_suffix h (List.suffix_append html rest) with h' | ⟨es, rfl⟩
  · exact .inl h'
  · by_cases hes : es = []
    · exact .inl (by rw [hes, List.nil_append])
    · exact .inr ⟨es, List.suffix_append_self_iff.1 h, hes, rfl⟩

theorem StaysLiteral.append {html html' rest : List Char}
    (h : StaysLiteral html (html' ++ rest)) (h' : StaysLiteral html' rest) :
    StaysLiteral (html ++ html') rest := by
  intro ds hds hne
  rcases suffix_or_of_suffix_append hds with hds' | ⟨es, hes, hne', rfl⟩
  · exact h' ds hds' hne
  · rw [List.append_assoc]
    exact h es hes hne'

/-- The chunks of two texts one after the other: literal markup that comes to touch is one piece. -/
def Chunk.Joins (ks js ls : List Chunk) : Prop :=
  ls = ks ++ js ∨ ∃ ks' html html' js', ks = ks' ++ [.literal html] ∧ js = .literal html' :: js'
    ∧ ls = ks' ++ .literal (html ++ html') :: js'

theorem Chunk.Joins.cons {ks js ls : List Chunk} (k : Chunk) (h : Joins ks js ls) :
    Joins (k :: ks) js (k :: ls) := by
  rcases h with rfl | ⟨ks', html, html', js', rfl, rfl, rfl⟩
  · exact .inl rfl
  · exact .inr ⟨k :: ks', html, html', js', rfl, rfl, rfl⟩

/-- A delimiter at the front is not touched by what is joined at the end. -/
theorem Chunk.Joins.exists_eq_cons {ks js ls : List Chunk} {m : Mark}
    (h : Joins (.mark m :: ks) js ls) : ∃ ls', ls = .mark m :: ls' := by
  rcases h with rfl | ⟨ks', html, html', js', heq, -, rfl⟩
  · exact ⟨_, rfl⟩
  · cases ks' with
    | nil => cases heq
    | cons k ks' =>
      obtain ⟨rfl, -⟩ := List.cons.inj heq
      exact ⟨_, rfl⟩

/-- Two texts one after the other are cut where each is cut alone, if the markup at the end of the
first is blank and what its comments leave open stays open. -/
theorem Cuts.append {s t : List Char} {ks js : List Chunk} (hs : Cuts s ks) (ht : Cuts t js)
    (hlast : ∀ ks' html, ks = ks' ++ [.literal html] → html.all Text.isBlank = true)
    (hopen : ∀ ds, ds <:+ s → Mark.LeavesOpen ds → Mark.LeavesOpen (ds ++ t)) :
    ∃ ls, Cuts (s ++ t) ls ∧ Chunk.Joins ks js ls := by
  induction hs with
  | nil => exact ⟨js, ht, .inl rfl⟩
  | @mark cs rest m ks h _ ih =>
    obtain ⟨taken, -, rfl⟩ := Mark.suffix_scan? h
    obtain ⟨ls, hls, hjoins⟩ := ih
      (fun ks' html heq ↦ hlast (.mark m :: ks') html (by rw [heq, List.cons_append]))
      (fun ds hds ↦ hopen ds (hds.trans (List.suffix_append _ _)))
    exact ⟨.mark m :: ls, .mark (Mark.scan?_append_of_some t h) hls, hjoins.cons _⟩
  | @literal html rest ks hne hstays hnext hrest ih =>
    cases hrest with
    | nil =>
      -- the last chunk, which literal markup may continue
      have hblank := hlast [] html rfl
      rw [List.append_nil]
      cases ht with
      | nil =>
        exact ⟨[.literal html], .literal hne (staysLiteral_of_blank hblank _) hnext .nil, .inl rfl⟩
      | mark hm hrest' =>
        exact ⟨_, .literal hne (staysLiteral_of_blank hblank _) Chunk.not_isLiteral_head?
          (.mark hm hrest'), .inl rfl⟩
      | @literal html' rest' js hne' hstays' hnext' hrest' =>
        refine ⟨.literal (html ++ html') :: js, ?_, .inr ⟨[], html, html', js, rfl, rfl, rfl⟩⟩
        rw [← List.append_assoc]
        exact .literal (List.append_ne_nil_of_left_ne_nil hne _)
          ((staysLiteral_of_blank hblank _).append hstays') hnext' hrest'
    | literal => exact absurd trivial (hnext _ rfl)
    | @mark _ rest m ks hm hrest =>
      obtain ⟨ls, hls, hjoins⟩ := ih
        (fun ks' html' heq ↦ hlast (.literal html :: ks') html' (by rw [heq, List.cons_append]))
        (fun ds hds ↦ hopen ds (hds.trans (List.suffix_append _ _)))
      obtain ⟨r, rfl⟩ := Mark.prefix_of_scan? hm
      refine ⟨.literal html :: ls, ?_, hjoins.cons _⟩
      rw [List.append_assoc]
      refine .literal hne (fun ds hds hds' ↦ ?_) ?_ hls
      · have hsuffix : ds ++ (Mark.commentOpen ++ r) <:+ html ++ (Mark.commentOpen ++ r) :=
          List.suffix_append_self_iff.2 hds
        rw [← List.append_assoc]
        exact Mark.scan?_append_eq_none hds' (hstays ds hds hds') (hopen _ hsuffix)
      · obtain ⟨ls, rfl⟩ := hjoins.exists_eq_cons
        exact Chunk.not_isLiteral_head?

/-! ### Deriving one document after another -/

namespace Block

/-- The chunks of a block start and end with a delimiter. -/
theorem Derives.exists_marks {ks : List Chunk} {b : Block} (h : Derives ks b) :
    (∃ m js, ks = .mark m :: js) ∧ ∃ m js, ks = js ++ [.mark m] := by
  cases h with
  | void name attrs => exact ⟨⟨_, [], rfl⟩, ⟨_, [], rfl⟩⟩
  | pair h => exact ⟨⟨_, _, rfl⟩, ⟨_, _, rfl⟩⟩

/-- Literal markup at the end of a document is blank. -/
theorem DerivesDocument.of_append_literal {ks ls : List Chunk} {html : List Char} {bs : List Block}
    (h : DerivesDocument ls bs) (hls : ls = ks ++ [.literal html]) :
    html.all Text.isBlank = true ∧ DerivesDocument ks bs := by
  induction h generalizing ks with
  | nil => simp at hls
  | @blank html' js bs hblank h ih =>
    cases ks with
    | nil =>
      obtain ⟨heq, rfl⟩ := List.cons.inj hls
      cases heq
      exact ⟨hblank, h⟩
    | cons k ks =>
      obtain ⟨rfl, rfl⟩ := List.cons.inj hls
      exact ⟨(ih rfl).1, .blank hblank (ih rfl).2⟩
  | @block js ks' b bs hb h ih =>
    -- a block ends with a delimiter, so the literal markup stands behind it
    obtain ⟨-, m, js', rfl⟩ := hb.exists_marks
    rcases List.eq_nil_or_concat ks' with rfl | ⟨ks'', k, rfl⟩
    · rw [List.append_nil] at hls
      cases (List.append_inj' hls rfl).2
    · rw [List.concat_eq_append, ← List.append_assoc] at hls
      obtain ⟨rfl, heq⟩ := List.append_inj' hls rfl
      cases heq
      have := ih (List.concat_eq_append)
      exact ⟨this.1, .block hb this.2⟩

/-- Literal markup at the start of a document is blank. -/
theorem DerivesDocument.of_literal_cons {ks : List Chunk} {html : List Char} {bs : List Block}
    (h : DerivesDocument (.literal html :: ks) bs) :
    html.all Text.isBlank = true ∧ DerivesDocument ks bs := by
  generalize hls : Chunk.literal html :: ks = ls at h
  cases h with
  | nil => cases hls
  | blank hblank h =>
    cases hls
    exact ⟨hblank, h⟩
  | block hb h =>
    obtain ⟨⟨m, js, rfl⟩, -⟩ := hb.exists_marks
    cases hls

/-- Two documents one after the other derive the blocks of both. -/
theorem DerivesDocument.joins {ks js ls : List Chunk} {as bs : List Block}
    (h : DerivesDocument ks as) (h' : DerivesDocument js bs) (hls : Chunk.Joins ks js ls) :
    DerivesDocument ls (as ++ bs) := by
  rcases hls with rfl | ⟨ks', html, html', js', rfl, rfl, rfl⟩
  · exact h.append h'
  · obtain ⟨hblank, h⟩ := h.of_append_literal rfl
    obtain ⟨hblank', h'⟩ := h'.of_literal_cons
    exact h.append (.blank (by rw [List.all_append, hblank, hblank', Bool.and_self]) h')

end Block

/-! ### Trees spelled out -/

namespace Chunk

/-- What a chunk inside some open blocks says about the tree: a void is a pair, a closer has no
attributes, and blank markup outside of all blocks says nothing. -/
def spell (depth : Nat) : Chunk → List Chunk
  | literal html => if depth = 0 ∧ html.all Text.isBlank then [] else [literal html]
  | mark (.delimiter ⟨.void, name, attrs⟩) =>
    [mark (.delimiter ⟨.opener, name, attrs⟩), mark (.delimiter ⟨.closer, name, []⟩)]
  | mark (.delimiter ⟨.closer, name, _⟩) => [mark (.delimiter ⟨.closer, name, []⟩)]
  | k => [k]

/-- How many blocks are open behind a chunk. -/
def depthAfter (depth : Nat) : Chunk → Nat
  | mark (.delimiter ⟨.opener, _, _⟩) => depth + 1
  | mark (.delimiter ⟨.closer, _, _⟩) => depth - 1
  | _ => depth

/-- What some chunks say about the tree. -/
def spelling (depth : Nat) : List Chunk → List Chunk
  | [] => []
  | k :: ks => k.spell depth ++ spelling (k.depthAfter depth) ks

theorem spelling_literal (depth : Nat) (html : List Char) (ks : List Chunk) :
    spelling depth (literal html :: ks)
      = if depth = 0 ∧ html.all Text.isBlank then spelling depth ks
        else literal html :: spelling depth ks := by
  show spell depth (literal html) ++ spelling depth ks = _
  rw [spell]
  split <;> rfl

/-- A delimiter is spelled with a delimiter in front, so literal markup does not join what it is
spelled with. -/
theorem exists_spell_mark (depth : Nat) (m : Mark) :
    ∃ m' ks, spell depth (mark m) = mark m' :: ks := by
  match m with
  | .malformed name => exact ⟨_, _, rfl⟩
  | .delimiter ⟨.opener, name, attrs⟩ => exact ⟨_, _, rfl⟩
  | .delimiter ⟨.closer, name, attrs⟩ => exact ⟨_, _, rfl⟩
  | .delimiter ⟨.void, name, attrs⟩ => exact ⟨_, _, rfl⟩

end Chunk

namespace Block

mutual

/-- A block spelled out: its content between an opener and a closer. -/
def spelling : Block → List Chunk
  | ⟨name, attrs, children, _, content⟩ =>
    .mark (.delimiter ⟨.opener, name, attrs⟩) :: weave content (spellingEach children)
      ++ [.mark (.delimiter ⟨.closer, name, []⟩)]

/-- Each block spelled out. -/
def spellingEach : List Block → List (List Chunk)
  | [] => []
  | b :: bs => b.spelling :: spellingEach bs

end

mutual

/-- The chunks that derive a block spell it out. -/
theorem Derives.spelling {js : List Chunk} {b : Block} (depth : Nat) (ks : List Chunk) :
    Derives js b → Chunk.spelling depth (js ++ ks) = b.spelling ++ Chunk.spelling depth ks
  | .void _ _ => rfl
  | @Derives.pair name attrs closing _ children content h => by
    have hcontent := h.spelling depth (.mark (.delimiter ⟨.closer, name, closing⟩) :: ks)
    simp only [List.cons_append, List.append_assoc, List.nil_append, Chunk.spelling,
      Chunk.depthAfter, hcontent]
    simp [Block.spelling, Chunk.spell]

/-- Inside of a block all literal markup is kept, blank or not. -/
theorem DerivesContent.spelling {js : List Chunk} {children : List Block}
    {content : List (Option String)} (depth : Nat) (ks : List Chunk) :
    DerivesContent js children content → Chunk.spelling (depth + 1) (js ++ ks)
      = weave content (spellingEach children) ++ Chunk.spelling (depth + 1) ks
  | .nil => rfl
  | .literal _ h => by
    rw [List.cons_append, Chunk.spelling_literal, if_neg (by simp), h.spelling depth ks, weave,
      String.toList_ofList, List.cons_append]
  | .block hb h => by
    rw [List.append_assoc, hb.spelling, h.spelling, spellingEach, weave, List.append_assoc]

end

/-- The chunks that derive a document spell out its blocks. -/
theorem DerivesDocument.spelling {ks : List Chunk} {bs : List Block} (h : DerivesDocument ks bs) :
    Chunk.spelling 0 ks = bs.flatMap Block.spelling := by
  induction h with
  | nil => rfl
  | blank hblank _ ih => rw [Chunk.spelling_literal, if_pos ⟨rfl, hblank⟩, ih]
  | block hb _ ih => rw [hb.spelling, ih, List.flatMap_cons]

end Block

theorem Mark.not_leavesOpen_nil : ¬LeavesOpen [] := by
  rintro ⟨_, _, _, hheader, -⟩
  cases hheader

/-- Where literal markup is what the chunks of a text say first, it is the first chunk. -/
theorem Cuts.of_spelling_literal {html cs : List Char} {js ls : List Chunk} {depth : Nat}
    (hcs : Cuts (html ++ cs) ls) (h : .literal html :: js <+: Chunk.spelling depth ls) :
    StaysLiteral html cs ∧ ∃ ls', Cuts cs ls' ∧ js <+: Chunk.spelling depth ls' := by
  generalize hds : html ++ cs = ds at hcs
  cases hcs with
  | nil => exact absurd (List.prefix_nil.1 h) (List.cons_ne_nil _ _)
  | @mark _ rest m ls hm hrest =>
    obtain ⟨m', ks, hspell⟩ := Chunk.exists_spell_mark depth m
    rw [Chunk.spelling, hspell, List.cons_append, List.cons_prefix_cons] at h
    cases h.1
  | @literal html' rest ls hne hstays hnext hrest =>
    rw [Chunk.spelling_literal] at h
    split at h
    · -- markup that says nothing is followed by a delimiter or by nothing
      cases hrest with
      | nil => exact absurd (List.prefix_nil.1 h) (List.cons_ne_nil _ _)
      | @mark _ rest m ls hm hrest =>
        obtain ⟨m', ks, hspell⟩ := Chunk.exists_spell_mark depth m
        rw [Chunk.spelling, hspell, List.cons_append, List.cons_prefix_cons] at h
        cases h.1
      | literal => exact absurd trivial (hnext _ rfl)
    · obtain ⟨heq, hjs⟩ := List.cons_prefix_cons.1 h
      cases heq
      obtain rfl := List.append_cancel_left hds
      exact ⟨hstays, ls, hrest, hjs⟩

/-- If what the chunks of a text say about the tree is said also when more text follows, then what
the comments of the text leave open stays open. -/
theorem Cuts.leavesOpen_append {s t : List Char} {ks ls : List Chunk} (depth : Nat)
    (hs : Cuts s ks) (hst : Cuts (s ++ t) ls)
    (h : Chunk.spelling depth ks <+: Chunk.spelling depth ls) :
    ∀ ds, ds <:+ s → Mark.LeavesOpen ds → Mark.LeavesOpen (ds ++ t) := by
  induction hs generalizing ls depth with
  | nil =>
    intro ds hds hopen
    obtain rfl := List.suffix_nil.1 hds
    exact absurd hopen Mark.not_leavesOpen_nil
  | @mark cs rest m ks hm hrest ih =>
    intro ds hds hopen
    -- the same delimiter is read first
    have hm' := Mark.scan?_append_of_some t hm
    obtain rfl : ls = .mark m :: (Segments.ofChars (rest ++ t)).chunks := by
      rw [← hst.chunks_ofChars, Segments.ofChars_of_scan? hm']
    rw [Chunk.spelling, Chunk.spelling, List.prefix_append_right_inj] at h
    exact ih _ (cuts_chunks_ofChars _) h ds (hopen.suffix hm hds) hopen
  | @literal html rest ks hne hstays hnext hrest ih =>
    have hrest' : StaysLiteral html (rest ++ t)
        ∧ ∀ ds, ds <:+ rest → Mark.LeavesOpen ds → Mark.LeavesOpen (ds ++ t) := by
      rw [List.append_assoc] at hst
      rw [Chunk.spelling_literal] at h
      split at h
      · next hblank =>
        have hstays' := staysLiteral_of_blank hblank.2 (rest ++ t)
        refine ⟨hstays', ?_⟩
        cases hrest with
        | nil =>
          intro ds hds hopen
          obtain rfl := List.suffix_nil.1 hds
          exact absurd hopen Mark.not_leavesOpen_nil
        | literal => exact absurd trivial (hnext _ rfl)
        | @mark _ rest' m ks hm hrest =>
          have hcuts : Cuts (rest ++ t) (.mark m :: (Segments.ofChars (rest' ++ t)).chunks) :=
            .mark (Mark.scan?_append_of_some t hm) (cuts_chunks_ofChars _)
          have hls := Cuts.literal hne hstays' Chunk.not_isLiteral_head? hcuts
          rw [← hst.chunks_ofChars, hls.chunks_ofChars, Chunk.spelling_literal, if_pos hblank] at h
          exact ih depth hcuts h
      · obtain ⟨hstays', ls', hcuts, h⟩ := hst.of_spelling_literal h
        exact ⟨hstays', ih depth hcuts h⟩
    obtain ⟨hstays', ih⟩ := hrest'
    intro ds hds hopen
    rcases suffix_or_of_suffix_append hds with h | ⟨es, hes, hne, rfl⟩
    · exact ih ds h hopen
    · refine Mark.leavesOpen_iff.2 ⟨(Mark.leavesOpen_iff.1 hopen).1.append t, ?_⟩
      rw [List.append_assoc]
      exact hstays' es hes hne

namespace Block

/-- Two documents one after the other are read as the blocks of both exactly when what the comments
of the first leave open is not ended by the second. -/
theorem parse_append_iff {s t : String} {as bs : List Block} (hs : parse s = .ok as)
    (ht : parse t = .ok bs) : parse (s ++ t) = .ok (as ++ bs) ↔
      ∀ ds, ds <:+ s.toList → Mark.LeavesOpen ds → Mark.LeavesOpen (ds ++ t.toList) := by
  rw [parse, parseChars_eq_ok_iff] at hs ht ⊢
  rw [String.toList_append]
  have hcs := cuts_chunks_ofChars s.toList
  constructor
  · intro hst
    refine hcs.leavesOpen_append 0 (cuts_chunks_ofChars _) ?_
    rw [hs.spelling, hst.spelling, List.flatMap_append]
    exact List.prefix_append _ _
  · intro hopen
    have hlast : ∀ ks html, (Segments.ofChars s.toList).chunks = ks ++ [.literal html] →
        html.all Text.isBlank = true := fun _ _ heq ↦ (hs.of_append_literal heq).1
    obtain ⟨ls, hls, hjoins⟩ := hcs.append (cuts_chunks_ofChars t.toList) hlast hopen
    rw [hls.chunks_ofChars]
    exact hs.joins ht hjoins

/-- The first document leaves attributes open, and there is no brace that could end them. -/
theorem parse_append_unended :
    parse "<!-- wp:p --><!-- wp:x \x7b<!-- /wp:p -->\n" =
        .ok [⟨"core/p", [], [], "<!-- wp:x \x7b", [some "<!-- wp:x \x7b"]⟩]
      ∧ parse " <!-- wp:y /-->" = .ok [leaf "core/y" [] ""]
      ∧ parse ("<!-- wp:p --><!-- wp:x \x7b<!-- /wp:p -->\n" ++ " <!-- wp:y /-->") =
        .ok [⟨"core/p", [], [], "<!-- wp:x \x7b", [some "<!-- wp:x \x7b"]⟩,
          leaf "core/y" [] ""] := by
  have hs : parse "<!-- wp:p --><!-- wp:x \x7b<!-- /wp:p -->\n" =
      .ok [⟨"core/p", [], [], "<!-- wp:x \x7b", [some "<!-- wp:x \x7b"]⟩] := by
    have hblank : Cuts "\n".toList [.literal "\n".toList] :=
      .literal (List.cons_ne_nil _ []) (staysLiteral_of_blank (by decide) []) (by simp) .nil
    have hliteral : StaysLiteral "<!-- wp:x \x7b".toList "<!-- /wp:p -->\n".toList := by decide
    have hcuts : Cuts "<!-- wp:p --><!-- wp:x \x7b<!-- /wp:p -->\n".toList
        [.mark (.delimiter ⟨.opener, "core/p", []⟩), .literal "<!-- wp:x \x7b".toList,
          .mark (.delimiter ⟨.closer, "core/p", []⟩), .literal "\n".toList] :=
      .mark rfl (.literal (by decide) hliteral Chunk.not_isLiteral_head? (.mark rfl hblank))
    rw [parse, parseChars_eq_ok_iff, hcuts.chunks_ofChars]
    exact .block (.pair (.literal (by decide) .nil)) (.blank (by decide) .nil)
  have ht : parse " <!-- wp:y /-->" = .ok [leaf "core/y" [] ""] := by
    have hcuts : Cuts " <!-- wp:y /-->".toList
        [.literal [' '], .mark (.delimiter ⟨.void, "core/y", []⟩)] :=
      .literal (List.cons_ne_nil _ []) (staysLiteral_of_blank (by decide) _)
        Chunk.not_isLiteral_head? (.mark rfl .nil)
    rw [parse, parseChars_eq_ok_iff, hcuts.chunks_ofChars]
    exact .blank (by decide) (.block (.void _ _) .nil)
  refine ⟨hs, ht, (parse_append_iff hs ht).2 fun ds hds hopen ↦
    hopen.append_of_not_mem fun hmem ↦ ?_⟩
  rcases List.mem_append.1 hmem with hmem | hmem
  · exact absurd (hds.subset hmem) (by decide)
  · exact absurd hmem (by decide)

/-- The second document ends the attributes that the first leaves open, and what stood between is no
longer read as it was. -/
theorem parse_append_ended :
    parse "<!-- wp:p --><!-- wp:x \x7b<!-- /wp:p -->" =
        .ok [⟨"core/p", [], [], "<!-- wp:x \x7b", [some "<!-- wp:x \x7b"]⟩]
      ∧ parse "<!-- wp:y -->\x7d --><!-- /wp:y -->" =
        .ok [⟨"core/y", [], [], "\x7d -->", [some "\x7d -->"]⟩]
      ∧ parse ("<!-- wp:p --><!-- wp:x \x7b<!-- /wp:p -->"
          ++ "<!-- wp:y -->\x7d --><!-- /wp:y -->") ≠
        .ok [⟨"core/p", [], [], "<!-- wp:x \x7b", [some "<!-- wp:x \x7b"]⟩,
          ⟨"core/y", [], [], "\x7d -->", [some "\x7d -->"]⟩] := by
  refine ⟨?_, ?_, ?_⟩
  · have hliteral : StaysLiteral "<!-- wp:x \x7b".toList "<!-- /wp:p -->".toList := by decide
    have hcuts : Cuts "<!-- wp:p --><!-- wp:x \x7b<!-- /wp:p -->".toList
        [.mark (.delimiter ⟨.opener, "core/p", []⟩), .literal "<!-- wp:x \x7b".toList,
          .mark (.delimiter ⟨.closer, "core/p", []⟩)] :=
      .mark rfl (.literal (by decide) hliteral Chunk.not_isLiteral_head? (.mark rfl .nil))
    rw [parse, parseChars_eq_ok_iff, hcuts.chunks_ofChars]
    exact .block (.pair (.literal (by decide) .nil)) .nil
  · have hliteral : StaysLiteral "\x7d -->".toList "<!-- /wp:y -->".toList := by decide
    have hcuts : Cuts "<!-- wp:y -->\x7d --><!-- /wp:y -->".toList
        [.mark (.delimiter ⟨.opener, "core/y", []⟩), .literal "\x7d -->".toList,
          .mark (.delimiter ⟨.closer, "core/y", []⟩)] :=
      .mark rfl (.literal (by decide) hliteral Chunk.not_isLiteral_head? (.mark rfl .nil))
    rw [parse, parseChars_eq_ok_iff, hcuts.chunks_ofChars]
    exact .block (.pair (.literal (by decide) .nil)) .nil
  · have hcuts : Cuts ("<!-- wp:p --><!-- wp:x \x7b<!-- /wp:p -->"
        ++ "<!-- wp:y -->\x7d --><!-- /wp:y -->").toList
        [.mark (.delimiter ⟨.opener, "core/p", []⟩),
          .mark (Mark.ofParts false false "core/x"
            (some "\x7b<!-- /wp:p --><!-- wp:y -->\x7d".toList)),
          .mark (.delimiter ⟨.closer, "core/y", []⟩)] :=
      .mark rfl (.mark rfl (.mark rfl .nil))
    rw [Ne, parse, parseChars_eq_ok_iff, hcuts.chunks_ofChars]
    intro h
    have hrun := h.run []
    -- whatever the attributes are, the block that they open is not the one that is closed
    rw [Mark.ofParts] at hrun
    split at hrun <;> cases hrun

end Block

end PostBlocks
