import Mathlib.Data.List.Chain
import Mathlib.Data.List.Infix
import PostBlocks.Block.Segment
import PostBlocks.Proofs.Block.Literal

/-!
# A text and its chunks

A cut text is a sequence of chunks: delimiters, and non-empty pieces of literal markup between them.
`Cuts` says which chunks a text is cut into without saying how they are found: what is taken for a
delimiter is one, and literal markup is literal at every one of its characters. A text is cut in
exactly one way (`cuts_iff`).

The condition on literal markup looks at what follows it as well (`StaysLiteral`): whether a comment
is a delimiter depends on all the text behind it, as the end of its attributes is searched for to
the end of the text. Two neighbours are never both literal, since each piece goes up to the next
delimiter (`Cuts.isChain`); without that, a text could be cut in many ways. As the cut is unique,
most of what follows speaks of `Cuts` and not of the function that cuts.
-/

namespace PostBlocks

/-- A piece of a cut text: literal markup, or a recognized comment. -/
inductive Chunk where
  | literal (html : List Char)
  | mark (m : Mark)

namespace Chunk

/-- A chunk of literal markup. -/
def IsLiteral : Chunk → Prop
  | literal _ => True
  | mark _ => False

/-- Chunks that may stand next to each other: literal markup is one piece up to the next comment. -/
def Adjoins (j k : Chunk) : Prop :=
  ¬(j.IsLiteral ∧ k.IsLiteral)

/-- The condition that `Cuts.literal` puts on what comes next, where that is a delimiter. -/
theorem not_isLiteral_head? {m : Mark} {ks : List Chunk} :
    ∀ k ∈ (mark m :: ks).head?, ¬k.IsLiteral := by
  rintro k ⟨⟩ hk
  exact hk

/-- Literal markup as chunks: none when it is empty. -/
def ofLiteral : List Char → List Chunk
  | [] => []
  | c :: cs => [literal (c :: cs)]

/-- One more character of literal markup in front of some chunks. -/
def push (c : Char) : List Chunk → List Chunk
  | literal html :: ks => literal (c :: html) :: ks
  | ks => literal [c] :: ks

end Chunk

/-- The literal markup of a segment, if there is any, and its delimiter. -/
def Segment.chunks (s : Segment) : List Chunk :=
  Chunk.ofLiteral s.literal ++ [.mark s.mark]

/-- The chunks of a cut text. -/
def Segments.chunks (s : Segments) : List Chunk :=
  s.segments.flatMap Segment.chunks ++ Chunk.ofLiteral s.tail

theorem Segments.chunks_cons (s : Segment) (ss : List Segment) (tail : List Char) :
    chunks ⟨s :: ss, tail⟩ = Chunk.ofLiteral s.literal ++ .mark s.mark :: chunks ⟨ss, tail⟩ := by
  simp [chunks, Segment.chunks]

/-- Some markup in front of a text starts a delimiter nowhere. -/
def StaysLiteral (html rest : List Char) : Prop :=
  ∀ ds, ds <:+ html → ds ≠ [] → Mark.scan? (ds ++ rest) = none

/-- The ends of a text are finitely many, so the condition can be tested. -/
theorem staysLiteral_iff {html rest : List Char} : StaysLiteral html rest ↔
    ∀ ds ∈ html.tails, ds ≠ [] → (Mark.scan? (ds ++ rest)).isNone = true := by
  simp only [StaysLiteral, List.mem_tails, Option.isNone_iff_eq_none]

instance (html rest : List Char) : Decidable (StaysLiteral html rest) :=
  decidable_of_iff _ staysLiteral_iff.symm

theorem staysLiteral_nil (rest : List Char) : StaysLiteral [] rest :=
  fun _ hds hne ↦ absurd (List.suffix_nil.1 hds) hne

/-- Literal markup grows at its front, by a character at which no delimiter starts. -/
theorem StaysLiteral.cons {c : Char} {html rest : List Char}
    (h : Mark.scan? (c :: (html ++ rest)) = none) (hstays : StaysLiteral html rest) :
    StaysLiteral (c :: html) rest := by
  intro ds hds hne
  rcases List.suffix_cons_iff.1 hds with rfl | hds
  · exact h
  · exact hstays ds hds hne

/-- A text is cut into these chunks. -/
inductive Cuts : List Char → List Chunk → Prop
  | nil : Cuts [] []
  | mark {cs rest : List Char} {m : Mark} {ks : List Chunk} (h : Mark.scan? cs = some (m, rest)) :
    Cuts rest ks → Cuts cs (.mark m :: ks)
  | literal {html rest : List Char} {ks : List Chunk} (hne : html ≠ [])
    (h : StaysLiteral html rest) (hnext : ∀ k ∈ ks.head?, ¬k.IsLiteral) :
    Cuts rest ks → Cuts (html ++ rest) (.literal html :: ks)

/-! ### Cutting -/

/-- A text that starts with a delimiter is cut behind it. With `Segments.ofChars_cons` this is all
that `Cuts.chunks_ofChars` needs to know of how a text is cut. -/
theorem Segments.ofChars_of_scan? {cs rest : List Char} {m : Mark}
    (h : Mark.scan? cs = some (m, rest)) :
    (ofChars cs).chunks = .mark m :: (ofChars rest).chunks := by
  rw [ofChars.eq_def]
  split
  · next h' =>
    rw [h] at h'
    cases h'
    rfl
  · next h' =>
    rw [h] at h'
    cases h'

theorem Segments.chunks_push (c : Char) (s : Segments) :
    (push c s).chunks = Chunk.push c s.chunks := by
  obtain ⟨_ | ⟨⟨literal, m, written⟩, ss⟩, tail⟩ := s
  · cases tail <;> rfl
  · cases literal <;> rfl

theorem Segments.ofChars_eq_push {c : Char} {cs : List Char} (h : Mark.scan? (c :: cs) = none) :
    ofChars (c :: cs) = push c (ofChars cs) := by
  rw [ofChars.eq_def]
  split
  · next h' =>
    rw [h] at h'
    cases h'
  · rfl

/-- A text that starts with no delimiter has its first character in literal markup. -/
theorem Segments.ofChars_cons {c : Char} {cs : List Char} (h : Mark.scan? (c :: cs) = none) :
    (ofChars (c :: cs)).chunks = Chunk.push c (ofChars cs).chunks := by
  rw [← chunks_push, ofChars_eq_push h]

/-- A character in front that starts no delimiter is literal markup. -/
theorem Cuts.push {c : Char} {cs : List Char} {ks : List Chunk} (h : Mark.scan? (c :: cs) = none)
    (hcs : Cuts cs ks) : Cuts (c :: cs) (Chunk.push c ks) := by
  have hsingle : StaysLiteral [c] cs := .cons h (staysLiteral_nil cs)
  cases hcs with
  | nil => exact .literal (List.cons_ne_nil _ _) hsingle (fun _ hk ↦ nomatch hk) .nil
  | mark hm hrest =>
    exact .literal (List.cons_ne_nil _ _) hsingle Chunk.not_isLiteral_head? (.mark hm hrest)
  | literal hne hstays hnext hrest =>
    exact .literal (List.cons_ne_nil _ _) (hstays.cons h) hnext hrest

/-- A text is cut into the chunks that are found. -/
theorem cuts_chunks_ofChars (cs : List Char) : Cuts cs (Segments.ofChars cs).chunks := by
  fun_induction Segments.ofChars cs with
  | case1 cs m rest h after ih => exact .mark h ih
  | case2 => exact .nil
  | case3 c cs h ih =>
    rw [Segments.chunks_push]
    exact ih.push h

/-- A text is cut in one way only. -/
theorem Cuts.chunks_ofChars {cs : List Char} {ks : List Chunk} (h : Cuts cs ks) :
    (Segments.ofChars cs).chunks = ks := by
  induction h with
  | nil =>
    rw [Segments.ofChars.eq_def]
    rfl
  | mark h _ ih => rw [Segments.ofChars_of_scan? h, ih]
  | @literal html rest ks hne hstays hnext _ ih =>
    -- character by character from the end of the literal markup
    have hsuffix : ∀ ds, ds <:+ html → ds ≠ [] →
        (Segments.ofChars (ds ++ rest)).chunks = .literal ds :: ks := by
      intro ds
      induction ds with
      | nil => exact fun _ hne ↦ absurd rfl hne
      | cons d ds ihds =>
        intro hds _
        have hnone : Mark.scan? (d :: (ds ++ rest)) = none := hstays _ hds (List.cons_ne_nil _ _)
        rw [List.cons_append, Segments.ofChars_cons hnone]
        by_cases hnil : ds = []
        · subst hnil
          rw [List.nil_append, ih]
          match ks, hnext with
          | [], _ => rfl
          | .mark m :: ks, _ => rfl
          | .literal html :: ks, hnext => exact absurd trivial (hnext _ rfl)
        · rw [ihds ((List.suffix_cons d ds).trans hds) hnil]
          rfl
    exact hsuffix html List.suffix_rfl hne

/-- Cutting finds the chunks of a text, all of them and no others. -/
theorem cuts_iff {cs : List Char} {ks : List Chunk} :
    Cuts cs ks ↔ (Segments.ofChars cs).chunks = ks :=
  ⟨Cuts.chunks_ofChars, fun h ↦ h ▸ cuts_chunks_ofChars cs⟩

/-- A piece of literal markup is there for its characters, so it has some. -/
theorem Cuts.literal_ne_nil {cs : List Char} {ks : List Chunk} (h : Cuts cs ks) :
    ∀ html, Chunk.literal html ∈ ks → html ≠ [] := by
  induction h with
  | nil => exact fun _ hmem ↦ nomatch hmem
  | mark _ _ ih => exact fun html hmem ↦ ih html (by simpa using hmem)
  | literal hne _ _ _ ih =>
    intro html hmem
    rcases List.mem_cons.1 hmem with heq | hmem
    · cases heq
      exact hne
    · exact ih html hmem

/-- Every delimiter has been recognized somewhere. -/
theorem Cuts.exists_scan? {cs : List Char} {ks : List Chunk} {m : Mark} (h : Cuts cs ks)
    (hm : .mark m ∈ ks) : ∃ ds rest, Mark.scan? ds = some (m, rest) := by
  induction h with
  | nil => cases hm
  | mark hscan _ ih =>
    rcases List.mem_cons.1 hm with heq | hm
    · cases heq
      exact ⟨_, _, hscan⟩
    · exact ih hm
  | literal _ _ _ _ ih => exact ih (by simpa using hm)

/-- No two pieces of literal markup touch. -/
theorem Cuts.isChain {cs : List Char} {ks : List Chunk} (h : Cuts cs ks) :
    ks.IsChain Chunk.Adjoins := by
  induction h with
  | nil => exact .nil
  | mark _ _ ih => exact List.isChain_cons.2 ⟨fun _ _ hk ↦ hk.1, ih⟩
  | literal _ _ hnext _ ih => exact List.isChain_cons.2 ⟨fun k hk hlit ↦ hnext k hk hlit.2, ih⟩

end PostBlocks
