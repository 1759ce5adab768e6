import PostBlocks.Proofs.Block.Front
import PostBlocks.Proofs.Block.Grammar

/-!
# What a markup error says

Reading a source stops at a place between two of its chunks (`Nesting.exists_stops_of_read`). The
chunks in front of it have been read, so they are those of finished blocks and of blocks that are
still open, one in the other (`Block.OpenAfter`). That is told by the grammar of documents alone,
with no stack in it, and `Nesting.Reads.openAfter` says that the stack agrees. The chunk behind the
place, or the end of the source, is what the error is about (`Nesting.Stops`).

Together, every error is true of the source (`Block.describes_of_parse`): the offset it names is a
place in the source, what stands there is what it says, and the block it calls open is the innermost
that is. A source can have several errors; which of them is reported is not said here.
-/

namespace PostBlocks

/-! ### Open blocks -/

namespace Block

/-- Behind these chunks the blocks with these names are open, innermost first: each has been opened
and has had some content since, and what stands outside of all of them is a document. -/
inductive OpenAfter : List Chunk → List String → Prop
  | document {ks : List Chunk} {bs : List Block} : DerivesDocument ks bs → OpenAfter ks []
  | inside {ks js : List Chunk} {name : String} {attrs : Json.Fields} {names : List String}
    {children : List Block} {content : List (Option String)} : OpenAfter ks names →
    DerivesContent js children content →
    OpenAfter (ks ++ .mark (.delimiter ⟨.opener, name, attrs⟩) :: js) (name :: names)

end Block

/-! ### Where reading stops -/

namespace Nesting

open Block (OpenAfter)

/-- The blocks that are left open are those that the chunks leave open. -/
theorem Reads.openAfter {ks : List Chunk} {n : Nesting} (h : Reads ks n) :
    OpenAfter ks (n.stack.map OpenBlock.name) := by
  induction h with
  | document h => exact .document h
  | inside _ hcontent ih => exact .inside ih hcontent

/-- Reading cannot go on with these chunks at this offset, for the reason that the error gives. -/
inductive Stops (n : Nesting) (offset : Nat) : List Chunk → MarkupError → Prop
  | unopened {name : String} {attrs : Json.Fields} {ks : List Chunk} (h : n.stack = []) :
    Stops n offset (.mark (.delimiter ⟨.closer, name, attrs⟩) :: ks) (.unopened name offset)
  | mismatched {name : String} {attrs : Json.Fields} {ks : List Chunk} {top : OpenBlock}
    {below : List OpenBlock} (h : n.stack = top :: below) (hname : top.name ≠ name) :
    Stops n offset (.mark (.delimiter ⟨.closer, name, attrs⟩) :: ks)
      (.mismatched name offset top.name)
  | unclosed {top : OpenBlock} {below : List OpenBlock} (h : n.stack = top :: below) :
    Stops n offset [] (.unclosed top.name)
  | stray {html : List Char} {ks : List Chunk} (h : n.stack = [])
    (hblank : ∃ c ∈ html, Text.isBlank c = false) :
    Stops n offset (.literal html :: ks) (.stray offset)
  | malformed {name : String} {html : List Char} {ks : List Chunk} :
    Stops n offset (Chunk.ofLiteral html ++ .mark (.malformed name) :: ks)
      (.malformedAttributes name)

section

variable {n : Nesting} {offset : Nat} {e : MarkupError}

theorem run?_ofLiteral {html : List Char} {n' : Nesting} (h : n.literal offset html = .ok n') :
    n.run? (Chunk.ofLiteral html) = some n' := by
  rw [← toOption_literal n offset, h]
  rfl

/-- Literal markup is an error only outside of all blocks, and only for a visible character. -/
theorem stops_of_literal {html : List Char} (h : n.literal offset html = .error e)
    (ks : List Chunk) : n.Stops offset (Chunk.ofLiteral html ++ ks) e := by
  match html, n, h with
  | c :: html, ⟨[], bs⟩, h =>
    simp only [literal] at h
    split at h
    · cases h
    · next hblank =>
      obtain rfl := Except.error.inj h
      obtain ⟨d, hd, hvisible⟩ := List.all_eq_false.1 (eq_false_of_ne_true hblank)
      exact .stray rfl ⟨d, hd, eq_false_of_ne_true hvisible⟩

/-- A delimiter is an error only if it closes what is not open, or not innermost. -/
theorem stops_of_delimiter {d : Delimiter} (h : n.delimiter offset d = .error e)
    (ks : List Chunk) : n.Stops offset (.mark (.delimiter d) :: ks) e := by
  match d, n, h with
  | ⟨.closer, name, attrs⟩, ⟨[], bs⟩, h =>
    obtain rfl := Except.error.inj h
    exact .unopened rfl
  | ⟨.closer, name, attrs⟩, ⟨top :: below, bs⟩, h =>
    simp only [delimiter] at h
    split at h
    · cases h
    · next hname =>
      obtain rfl := Except.error.inj h
      exact .mismatched rfl hname

theorem stops_of_finish (h : n.finish = .error e) : n.Stops offset [] e := by
  match n, h with
  | ⟨top :: below, bs⟩, h =>
    obtain rfl := Except.error.inj h
    exact .unclosed rfl

end

/-- Reading what is left of a source stops at a place in it. -/
theorem exists_stops_of_read {n : Nesting} {offset : Nat} {cs tail : List Char}
    {ss : List Segment} {e : MarkupError} (hcut : Segments.ofChars cs = ⟨ss, tail⟩)
    (h : n.read offset tail ss = .error e) :
    ∃ k js ks n', CutsAt cs k js ks ∧ n.run? js = some n' ∧ n'.Stops (offset + k) ks e := by
  have hcuts : Cuts cs (Segments.chunks ⟨ss, tail⟩) := cuts_iff.2 (by rw [hcut])
  induction ss generalizing n offset cs with
  | nil =>
    rcases Except.bind_eq_error_iff.1 h with h | ⟨n', hn', h⟩
    · -- behind the last delimiter
      have hstops := stops_of_literal h []
      rw [List.append_nil] at hstops
      exact ⟨0, [], _, n, .zero hcuts, rfl, hstops⟩
    · exact ⟨_, _, [], n', .whole hcuts, run?_ofLiteral hn', stops_of_finish h⟩
  | cons s ss ih =>
    obtain ⟨html, m, written⟩ := s
    obtain ⟨rest, rfl, hstays, hscan, hrest⟩ := Segments.ofChars_eq_cons_iff.1 hcut
    rw [Segments.chunks_cons] at hcuts
    match m, h with
    | .malformed name, h =>
      obtain rfl := Except.error.inj h
      exact ⟨0, [], _, n, .zero hcuts, rfl, .malformed⟩
    | .delimiter d, h =>
      have hafter : Cuts rest (Segments.chunks ⟨ss, tail⟩) := cuts_iff.2 (by rw [hrest])
      rcases Except.bind_eq_error_iff.1 h with h | ⟨n₁, hn₁, h⟩
      · exact ⟨0, [], _, n, .zero hcuts, rfl, stops_of_literal h _⟩
      have hrun₁ : n.run? (Chunk.ofLiteral html) = some n₁ := run?_ofLiteral hn₁
      rcases Except.bind_eq_error_iff.1 h with h | ⟨n₂, hn₂, h⟩
      · -- at the delimiter, behind the literal markup
        refine ⟨_, _, _, n₁,
          .ofLiteral hstays Chunk.not_isLiteral_head? (.zero (.mark hscan hafter)), ?_,
          stops_of_delimiter h _⟩
        rw [List.append_nil, hrun₁]
      · -- behind the delimiter
        obtain ⟨k, js, ks, n', hat, hrun, hstops⟩ := ih hrest h hafter
        refine ⟨_, _, ks, n',
          .ofLiteral hstays Chunk.not_isLiteral_head? (.mark hscan hat), ?_, ?_⟩
        · rw [run?_append, hrun₁, Option.bind_some, run?_cons, ← toOption_delimiter n₁, hn₂]
          exact hrun
        · rw [← Nat.add_assoc, ← Nat.add_assoc]
          exact hstops

end Nesting

/-! ### Errors -/

open Block (OpenAfter)

/-- What an error says of a source. In front of the place that it names, and of the delimiter with
unreadable attributes, no closer is without its opener. -/
def MarkupError.Describes (cs : List Char) : MarkupError → Prop
  | unopened name offset => ∃ attrs js ks,
    CutsAt cs offset js (.mark (.delimiter ⟨.closer, name, attrs⟩) :: ks) ∧ OpenAfter js []
  | mismatched name offset innermost => ∃ attrs js ks outer,
    CutsAt cs offset js (.mark (.delimiter ⟨.closer, name, attrs⟩) :: ks)
      ∧ OpenAfter js (innermost :: outer) ∧ innermost ≠ name
  | unclosed name => ∃ ks outer, Cuts cs ks ∧ OpenAfter ks (name :: outer)
  | stray offset => ∃ html js ks,
    CutsAt cs offset js (.literal html :: ks) ∧ OpenAfter js []
      ∧ ∃ c ∈ html, Text.isBlank c = false
  | malformedAttributes name => ∃ html offset js ks names,
    CutsAt cs offset js (Chunk.ofLiteral html ++ .mark (.malformed name) :: ks)
      ∧ OpenAfter js names

/-- Where reading stops at a place, its error says something true of the source: the stack there is
what the chunks in front of the place leave open. -/
theorem Nesting.Stops.describes {cs : List Char} {offset : Nat} {js ks : List Chunk} {n : Nesting}
    {e : MarkupError} (h : n.Stops offset ks e) (hat : CutsAt cs offset js ks)
    (hopen : OpenAfter js (n.stack.map OpenBlock.name)) : e.Describes cs := by
  match h with
  | .unopened hstack =>
    rw [hstack] at hopen
    exact ⟨_, js, _, hat, hopen⟩
  | .mismatched hstack hname =>
    rw [hstack] at hopen
    exact ⟨_, js, _, _, hat, hopen, hname⟩
  | .unclosed hstack =>
    rw [hstack] at hopen
    have hcuts := hat.cuts
    rw [List.append_nil] at hcuts
    exact ⟨js, _, hcuts, hopen⟩
  | .stray hstack hblank =>
    rw [hstack] at hopen
    exact ⟨_, js, _, hat, hopen, hblank⟩
  | .malformed => exact ⟨_, offset, js, _, _, hat, hopen⟩

namespace Block

/-- An error is true of the source: what it says stands at a place does so, the block that it calls
open is the innermost open one there, and in front of the place no closer lacks its opener. -/
theorem describes_of_parse {source : String} {e : MarkupError} (h : parse source = .error e) :
    e.Describes source.toList := by
  obtain ⟨k, js, ks, n, hat, hrun, hstops⟩ := Nesting.exists_stops_of_read rfl h
  rw [Nat.zero_add] at hstops
  have hne : ∀ html, Chunk.literal html ∈ js → html ≠ [] := fun html hmem ↦
    hat.cuts.literal_ne_nil html (List.mem_append_left ks hmem)
  have hreads := (Nesting.Reads.document .nil).run hne hrun
  exact hstops.describes hat hreads.openAfter

/-- The letter in front of the closer takes two bytes, so its offset is one more than its index. -/
theorem describes_of_parse_accent :
    parse "<!-- wp:a -->é<!-- /wp:b -->" = .error (.mismatched "core/b" 15 "core/a")
      ∧ MarkupError.Describes "<!-- wp:a -->é<!-- /wp:b -->".toList
        (.mismatched "core/b" 15 "core/a") := by
  have hend : Segments.ofChars [] = ⟨[], []⟩ := by
    rw [Segments.ofChars.eq_def]
    rfl
  have hcloser : Segments.ofChars "é<!-- /wp:b -->".toList
      = ⟨[⟨['é'], .delimiter ⟨.closer, "core/b", []⟩, "<!-- /wp:b -->".toList⟩], []⟩ :=
    Segments.ofChars_eq_cons_iff.2 ⟨[], rfl, by decide, rfl, hend⟩
  have hopener : Segments.ofChars "<!-- wp:a -->é<!-- /wp:b -->".toList
      = ⟨[⟨[], .delimiter ⟨.opener, "core/a", []⟩, "<!-- wp:a -->".toList⟩,
        ⟨['é'], .delimiter ⟨.closer, "core/b", []⟩, "<!-- /wp:b -->".toList⟩], []⟩ :=
    Segments.ofChars_eq_cons_iff.2 ⟨_, rfl, staysLiteral_nil _, rfl, hcloser⟩
  have h : parse "<!-- wp:a -->é<!-- /wp:b -->"
      = .error (.mismatched "core/b" 15 "core/a") := by
    rw [parse, parseChars, hopener]
    rfl
  exact ⟨h, describes_of_parse h⟩

end Block

end PostBlocks
