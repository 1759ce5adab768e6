import PostBlocks.Proofs.Block.Concat
import PostBlocks.Proofs.Block.Content

/-!
# Reading loses no markup

Reading takes two things out of a source: its delimiters, and the blanks that stand outside of all
blocks. `strip` takes out just these, from left to right, and knows nothing of trees; all it has to
remember is how many blocks are open. The HTML of a document is the source it was read from,
stripped (`documentHtml_eq_strip`).

Stripping a text is stripping its chunks (`Cuts.strip`), and the chunks that derive a block are
stripped to its HTML, whatever follows (`Derives.strip`).
-/

namespace PostBlocks

/-! ### Stripping a source -/

/-- A source without its delimiters, and without the blanks in it where no block is open, if so many
blocks are open in front of it. -/
def strip (depth : Nat) (cs : List Char) : List Char :=
  match _h : Mark.scan? cs with
  | some (m, rest) => strip (Chunk.depthAfter depth (.mark m)) rest
  | none =>
    match cs with
    | [] => []
    | c :: cs => if depth = 0 ∧ Text.isBlank c then strip depth cs else c :: strip depth cs
termination_by cs.length
decreasing_by
  · obtain ⟨taken, hne, rfl⟩ := Mark.suffix_scan? _h
    rw [List.length_append]
    have := List.length_pos_iff.2 hne
    omega
  · simp
  · simp

/-- A delimiter is left out, and changes how deep the text behind it stands. -/
theorem strip_of_scan? {depth : Nat} {cs rest : List Char} {m : Mark}
    (h : Mark.scan? cs = some (m, rest)) :
    strip depth cs = strip (Chunk.depthAfter depth (.mark m)) rest := by
  rw [strip.eq_def]
  split
  · next h' =>
    rw [h] at h'
    cases h'
    rfl
  · next h' =>
    rw [h] at h'
    cases h'

/-- Any other character stays, unless it is blank and stands outside of all blocks. -/
theorem strip_cons {depth : Nat} {c : Char} {cs : List Char} (h : Mark.scan? (c :: cs) = none) :
    strip depth (c :: cs)
      = if depth = 0 ∧ Text.isBlank c then strip depth cs else c :: strip depth cs := by
  rw [strip.eq_def]
  split
  · next h' =>
    rw [h] at h'
    cases h'
  · rfl

/-! ### Stripping chunks -/

namespace Chunk

/-- What is left of a chunk inside some open blocks. -/
def strip (depth : Nat) : Chunk → List Char
  | literal html => if depth = 0 then html.filter fun c ↦ !Text.isBlank c else html
  | mark _ => []

/-- What is left of some chunks. -/
def stripEach (depth : Nat) : List Chunk → List Char
  | [] => []
  | k :: ks => k.strip depth ++ stripEach (k.depthAfter depth) ks

end Chunk

/-- Literal markup in front of a text is stripped on its own. -/
theorem strip_append {depth : Nat} {html rest : List Char} (h : StaysLiteral html rest) :
    strip depth (html ++ rest) = (Chunk.literal html).strip depth ++ strip depth rest := by
  induction html with
  | nil => simp [Chunk.strip]
  | cons c html ih =>
    have hrest : StaysLiteral html rest := fun ds hds ↦ h ds (hds.trans (List.suffix_cons c html))
    have hscan : Mark.scan? (c :: (html ++ rest)) = none :=
      h (c :: html) List.suffix_rfl (List.cons_ne_nil _ _)
    rw [List.cons_append, strip_cons hscan, ih hrest, Chunk.strip, Chunk.strip]
    by_cases hdepth : depth = 0 <;> by_cases hblank : Text.isBlank c <;> simp [hdepth, hblank]

/-- A text is stripped chunk by chunk. -/
theorem Cuts.strip {cs : List Char} {ks : List Chunk} (h : Cuts cs ks) (depth : Nat) :
    strip depth cs = Chunk.stripEach depth ks := by
  induction h generalizing depth with
  | nil => rw [PostBlocks.strip.eq_def]; rfl
  | mark hscan _ ih => rw [strip_of_scan? hscan, ih]; rfl
  | literal _ hstays _ _ ih => rw [strip_append hstays, ih]; rfl

namespace Block

/-! ### Derived blocks -/

/-- A block whose html is the markup in its content comes out as its content, with children or
without. -/
theorem htmlChars_eq_ok {name : String} {attrs : Json.Fields} {children : List Block}
    {content : List (Option String)} {parts : List (List Char)}
    (hcount : countPlaceholders content = children.length)
    (hparts : renderEach bare children = .ok parts) :
    htmlChars ⟨name, attrs, children, String.join (content.filterMap id), content⟩
      = .ok (interleave content parts) := by
  refine render_eq_ok_iff_of_children.2 ⟨hcount, parts, hparts, ?_⟩
  cases children with
  | nil =>
    cases hparts
    exact (interleave_nil content).symm
  | cons b bs => rfl

mutual

/-- The chunks that derive a block are stripped to its HTML. -/
theorem Derives.strip {js : List Chunk} {b : Block} (depth : Nat) : Derives js b →
    ∃ out, b.htmlChars = .ok out ∧
      ∀ ks, Chunk.stripEach depth (js ++ ks) = out ++ Chunk.stripEach depth ks
  | .void name attrs => ⟨[], rfl, fun _ ↦ rfl⟩
  | @Derives.pair name attrs closing js children content h => by
    obtain ⟨parts, hparts, hstrip⟩ := h.strip depth
    refine ⟨_, htmlChars_eq_ok h.countPlaceholders hparts, fun ks ↦ ?_⟩
    rw [List.append_assoc, List.cons_append]
    exact hstrip (.mark (.delimiter ⟨.closer, name, closing⟩) :: ks)

/-- The chunks that derive the content of a block are stripped to the content with the HTML of the
children filled in. -/
theorem DerivesContent.strip {js : List Chunk} {children : List Block}
    {content : List (Option String)} (depth : Nat) : DerivesContent js children content →
    ∃ parts, renderEach bare children = .ok parts ∧ ∀ ks, Chunk.stripEach (depth + 1) (js ++ ks)
      = interleave content parts ++ Chunk.stripEach (depth + 1) ks
  | .nil => ⟨[], rfl, fun _ ↦ rfl⟩
  | @DerivesContent.literal html js children content _ h => by
    obtain ⟨parts, hparts, hstrip⟩ := h.strip depth
    refine ⟨parts, hparts, fun ks ↦ ?_⟩
    rw [interleave, String.toList_ofList, List.append_assoc, ← hstrip]
    rfl
  | .block hb h => by
    obtain ⟨part, hpart, hstrip⟩ := hb.strip (depth + 1)
    obtain ⟨parts, hparts, hstrip'⟩ := h.strip depth
    refine ⟨part :: parts, renderEach_cons_eq_ok_iff.2 ⟨part, parts, hpart, hparts, rfl⟩,
      fun ks ↦ ?_⟩
    rw [List.append_assoc, hstrip, hstrip', interleave, List.append_assoc]

end

/-- The chunks that derive a document are stripped to the HTML of its blocks. -/
theorem DerivesDocument.strip {ks : List Chunk} {bs : List Block} (h : DerivesDocument ks bs) :
    ∃ parts, renderEach bare bs = .ok parts ∧ Chunk.stripEach 0 ks = parts.flatten := by
  induction h with
  | nil => exact ⟨[], rfl, rfl⟩
  | @blank html ks bs hblank _ ih =>
    obtain ⟨parts, hparts, hstrip⟩ := ih
    have hnothing : html.filter (fun c ↦ !Text.isBlank c) = [] :=
      List.filter_eq_nil_iff.2 fun c hc ↦ by simp [List.all_eq_true.1 hblank c hc]
    refine ⟨parts, hparts, ?_⟩
    rw [← hstrip, Chunk.stripEach, Chunk.strip, if_pos rfl, hnothing]
    rfl
  | block hb _ ih =>
    obtain ⟨part, hpart, hstrip⟩ := hb.strip 0
    obtain ⟨parts, hparts, hstrip'⟩ := ih
    refine ⟨part :: parts, renderEach_cons_eq_ok_iff.2 ⟨part, parts, hpart, hparts, rfl⟩, ?_⟩
    rw [hstrip, hstrip', List.flatten_cons]

/-! ### Documents -/

/-- The HTML of a document is the markup it was read from, without the delimiters and the blanks
outside of all blocks. -/
theorem documentHtml_eq_strip {s : String} {bs : List Block} (h : parse s = .ok bs) :
    documentHtml bs = .ok (.ofList (strip 0 s.toList)) := by
  obtain ⟨parts, hparts, hstrip⟩ := (parseChars_eq_ok_iff.1 h).strip
  rw [(cuts_chunks_ofChars s.toList).strip 0, hstrip]
  exact documentHtml_eq_ok hparts

theorem documentHtml_eq_strip_note : ∃ bs,
    parse " <!-- wp:a -->\n<!-- b --><!-- wp:c /--> d<!-- /wp:a -->\t" = .ok bs
      ∧ documentHtml bs = .ok (.ofList
        (strip 0 " <!-- wp:a -->\n<!-- b --><!-- wp:c /--> d<!-- /wp:a -->\t".toList))
      ∧ documentHtml bs = .ok "\n<!-- b --> d" := by
  have hcuts : Cuts " <!-- wp:a -->\n<!-- b --><!-- wp:c /--> d<!-- /wp:a -->\t".toList
      [.literal [' '], .mark (.delimiter ⟨.opener, "core/a", []⟩), .literal "\n<!-- b -->".toList,
        .mark (.delimiter ⟨.void, "core/c", []⟩), .literal [' ', 'd'],
        .mark (.delimiter ⟨.closer, "core/a", []⟩), .literal ['\t']] := by
    have hnote : StaysLiteral "\n<!-- b -->".toList "<!-- wp:c /--> d<!-- /wp:a -->\t".toList := by
      decide
    have hd : StaysLiteral [' ', 'd'] "<!-- /wp:a -->\t".toList := by decide
    have hend : Cuts ['\t'] [.literal ['\t']] :=
      .literal (List.cons_ne_nil _ []) (staysLiteral_of_blank (by decide) []) (by simp) .nil
    have hinner : Cuts ("\n<!-- b -->".toList ++ "<!-- wp:c /--> d<!-- /wp:a -->\t".toList) _ :=
      .literal (by decide) hnote Chunk.not_isLiteral_head?
        (.mark rfl (.literal (by decide) hd Chunk.not_isLiteral_head? (.mark rfl hend)))
    exact .literal (List.cons_ne_nil _ []) (staysLiteral_of_blank (by decide) _)
      Chunk.not_isLiteral_head? (.mark rfl hinner)
  have hparse : parse " <!-- wp:a -->\n<!-- b --><!-- wp:c /--> d<!-- /wp:a -->\t" =
      .ok [⟨"core/a", [], [leaf "core/c" [] ""], "\n<!-- b --> d",
        [some "\n<!-- b -->", none, some " d"]⟩] := by
    rw [parse, parseChars_eq_ok_iff, hcuts.chunks_ofChars]
    exact .blank (by decide) (.block (.pair (.literal (by decide) (.block (.void _ _)
      (.literal (by decide) .nil)))) (.blank (by decide) .nil))
  exact ⟨_, hparse, documentHtml_eq_strip hparse, rfl⟩

end Block

end PostBlocks
