import PostBlocks.Post.Convert
import PostBlocks.Proofs.Block.Written

/-!
# Markup round trips

Writing a document and reading it back gives the document, if reading could have built it and its
literal markup stays literal (`exists_parse_documentMarkup`). Two kinds of document are such: those
without the start of a comment in any fragment (`parse_documentMarkup`), and those that have been
read from some markup, whatever it holds (`normalize_fixed`). For the latter, what keeps literal
markup literal is that writing only thins the chunks that were read.
-/

namespace PostBlocks.Block

/-- A writable document whose literal markup is settled can be written and reads back. -/
theorem exists_parse_documentMarkup {bs : List Block} (h : ∀ b ∈ nodesEach bs, b.IsWritable)
    (hsettled : Chunk.IsSettled (bs.flatMap chunks)) :
    ∃ m, documentMarkup bs = .ok m ∧ parse m = .ok bs := by
  have htidy : ∀ b ∈ nodesEach bs, b.IsTidy := fun b hb ↦ (h b hb).tidy
  refine ⟨.ofList ((bs.flatMap chunks).flatMap Chunk.write), ?_, ?_⟩
  · rw [documentMarkup, documentMarkupChars_eq htidy]
    rfl
  · rw [parse, String.toList_ofList, parseChars_eq_ok_iff, (cuts_chunks h hsettled).chunks_ofChars]
    exact derivesDocument_chunks htidy

theorem normalize_eq_ok {bs : List Block} {s m : String} (hparse : parse s = .ok bs)
    (hwrite : documentMarkup bs = .ok m) : normalize s = .ok m := by
  rw [normalize, hparse]
  show (documentMarkup bs).mapError NormalizeError.imbalance = .ok m
  rw [hwrite]
  rfl

/-! ### Documents without comments in their markup -/

/-- The fragments of a document hold no start of a comment, so all its literal markup is settled. -/
theorem isSettled_of_no_comment {bs : List Block}
    (h : ∀ b ∈ nodesEach bs, ∀ html, some html ∈ b.content → ¬Mark.commentOpen <:+: html.toList) :
    Chunk.IsSettled (bs.flatMap chunks) := by
  have hchunk : ∀ b ∈ bs, ∀ k ∈ b.chunks, ∀ html, k = .literal html →
      ¬Mark.commentOpen <:+: html := by
    refine forall_mem_chunksEach bs fun b hb ↦ ⟨?_, ?_, ?_⟩
    · rintro html hhtml _ ⟨⟩
      exact h b hb html hhtml
    · exact fun _ _ _ heq ↦ nomatch heq
    · exact fun _ heq ↦ nomatch heq
  refine Chunk.isSettled_of_no_comment fun html hmem ↦ ?_
  obtain ⟨b, hb, hk⟩ := List.mem_flatMap.1 hmem
  exact hchunk b hb _ hk html rfl

/-- A document that reading could have built, without the start of a comment in any fragment, can be
written; what is written reads back as the same document, and normalizing it changes nothing. -/
theorem parse_documentMarkup {bs : List Block} (h : ∀ b ∈ nodesEach bs, b.IsWritable)
    (hopen : ∀ b ∈ nodesEach bs, ∀ html, some html ∈ b.content →
      ¬Mark.commentOpen <:+: html.toList) :
    ∃ m, documentMarkup bs = .ok m ∧ parse m = .ok bs ∧ normalize m = .ok m := by
  obtain ⟨m, hwrite, hparse⟩ := exists_parse_documentMarkup h (isSettled_of_no_comment hopen)
  exact ⟨m, hwrite, hparse, normalize_eq_ok hparse hwrite⟩

/-- A quote with a void block inside, and an attribute that could end a comment. -/
theorem parse_documentMarkup_quote : ∃ m,
    documentMarkup [⟨"core/quote", [("className", .string "a-->b")],
        [leaf "my-kit/card" [("n", .number (.int (-3)))] ""], "<p></p>",
        [some "<p>", none, some "</p>"]⟩] = .ok m
      ∧ parse m = .ok [⟨"core/quote", [("className", .string "a-->b")],
        [leaf "my-kit/card" [("n", .number (.int (-3)))] ""], "<p></p>",
        [some "<p>", none, some "</p>"]⟩]
      ∧ normalize m = .ok m := by
  refine parse_documentMarkup ?_ ?_
  · have hquote : Attributes.IsRepresentable [("className", .string "a-->b")] :=
      ⟨⟨by decide, trivial, trivial⟩, ⟨trivial, trivial⟩, by decide⟩
    have hcard : Attributes.IsRepresentable [("n", .number (.int (-3)))] :=
      ⟨⟨by decide, trivial, trivial⟩, ⟨show Json.Number.IsWord (-3) by decide, trivial⟩, by decide⟩
    simp only [nodesEach, nodes, leaf, List.append_nil, List.forall_mem_cons]
    refine ⟨⟨by decide, hquote, rfl, by decide, ?_, by decide⟩,
      ⟨by decide, hcard, rfl, by decide, .nil, by decide⟩, ?_⟩
    · simp
    · simp
  · simp only [nodesEach, nodes, leaf, List.append_nil, List.forall_mem_cons]
    refine ⟨?_, ?_, by simp⟩
    · simp
      decide
    · simp

/-! ### Documents that have been read -/

/-- A document read from markup is tidy and has names and attributes that delimiters can spell, but
perhaps for its numbers. -/
theorem isWritable_of_parseChars {cs : List Char} {bs : List Block} (h : parseChars cs = .ok bs)
    (hwords : ∀ b ∈ nodesEach bs, (Json.object b.attrs).HasWordNumbers) :
    ∀ b ∈ nodesEach bs, b.IsWritable := by
  intro b hb
  obtain ⟨hfull, ⟨hwf, hdepth⟩, htidy⟩ := nodes_of_parseChars h b hb
  exact ⟨hfull, ⟨hwf, hwords b hb, hdepth⟩, htidy⟩

/-- Markup that is read, with integers of a 64-bit word for all its numbers, normalizes to markup
for the same document, and that is left alone by normalizing. -/
theorem normalize_fixed {s : String} {bs : List Block} (h : parse s = .ok bs)
    (hwords : ∀ b ∈ nodesEach bs, (Json.object b.attrs).HasWordNumbers) :
    ∃ m, normalize s = .ok m ∧ parse m = .ok bs ∧ normalize m = .ok m := by
  -- what is written is a thinning of what was read
  have hsettled : Chunk.IsSettled (bs.flatMap chunks) :=
    (parseChars_eq_ok_iff.1 h).thins.isSettled (cuts_chunks_ofChars s.toList).isSettled
  obtain ⟨m, hwrite, hparse⟩ :=
    exists_parse_documentMarkup (isWritable_of_parseChars h hwords) hsettled
  exact ⟨m, normalize_eq_ok h hwrite, hparse, normalize_eq_ok hparse hwrite⟩

/-- A comment that is no delimiter, a full name of the default namespace, and blanks that are not
written again. -/
theorem normalize_fixed_comment : ∃ m,
    normalize "<!-- wp:x \x7b\"n\":-3\x7d -->a<!-- b --><!--\t/wp:core/x -->\n" = .ok m
      ∧ parse m = .ok
        [⟨"core/x", [("n", .number (.int (-3)))], [], "a<!-- b -->", [some "a<!-- b -->"]⟩]
      ∧ normalize m = .ok m := by
  have hattrs : Attributes.IsRepresentable [("n", .number (.int (-3)))] :=
    Attributes.isRepresentable_of_flat (by decide)
      (List.forall_mem_singleton.2 ⟨show Json.Number.IsWord (-3) by decide, rfl⟩)
  have hwrite : Delimiter.write ⟨.opener, "core/x", [("n", .number (.int (-3)))]⟩
      = "<!-- wp:x \x7b\"n\":-3\x7d -->".toList := by
    have hint : Json.integerChars (-3) = ['-', '3'] := by
      show '-' :: Json.decimalChars 3 = _
      rw [Json.decimalChars, if_pos (by decide)]
    rw [Delimiter.write, Delimiter.writeAttrs, Attributes.encodeChars_eq_compactWith hattrs.words,
      Json.compactWith, Json.fieldsWith, Json.compactWith, Json.Number.chars, hint]
    rfl
  have hopener : Mark.scan? ("<!-- wp:x \x7b\"n\":-3\x7d -->".toList
      ++ ("a<!-- b -->".toList ++ "<!--\t/wp:core/x -->\n".toList)) = some (_, _) :=
    hwrite ▸ Mark.scan?_write (by decide) hattrs (by decide) _
  have hcloser : Mark.scan? "<!--\t/wp:core/x -->\n".toList
      = some (.delimiter ⟨.closer, "core/x", []⟩, "\n".toList ++ []) := rfl
  have hliteral : StaysLiteral "a<!-- b -->".toList "<!--\t/wp:core/x -->\n".toList := by decide
  have hnil : ∀ k ∈ ([] : List Chunk).head?, ¬k.IsLiteral := by simp
  have hend : Cuts "<!--\t/wp:core/x -->\n".toList
      [.mark (.delimiter ⟨.closer, "core/x", []⟩), .literal "\n".toList] :=
    .mark hcloser (.literal (by decide) (by decide) hnil .nil)
  have hcuts : Cuts "<!-- wp:x \x7b\"n\":-3\x7d -->a<!-- b --><!--\t/wp:core/x -->\n".toList _ :=
    .mark hopener (.literal (by decide) hliteral (by rintro k ⟨⟩ hk; exact hk) hend)
  have hparse : parse "<!-- wp:x \x7b\"n\":-3\x7d -->a<!-- b --><!--\t/wp:core/x -->\n" = .ok
      [⟨"core/x", [("n", .number (.int (-3)))], [], "a<!-- b -->", [some "a<!-- b -->"]⟩] := by
    rw [parse, parseChars_eq_ok_iff, hcuts.chunks_ofChars]
    exact .block (.pair (.literal (by decide) .nil)) (.blank (by decide) .nil)
  exact normalize_fixed hparse (by simp [nodesEach, nodes, Json.HasWordNumbers,
    Json.FieldsHaveWordNumbers, Json.Number.IsWord])

end PostBlocks.Block
