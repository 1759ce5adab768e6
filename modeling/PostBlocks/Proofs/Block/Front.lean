import PostBlocks.Proofs.Block.Chunk
import PostBlocks.Proofs.Block.Extend

/-!
# The front of a cut text

What makes a delimiter stands in front of its end: without the text behind it, it is the same
delimiter (`Mark.scan?_of_append`). So a text can be parted between any two of its chunks, and each
part is cut by itself as it is in the text (`CutsAt`). The other way round this does not hold: a
comment at the end of one text may go on in the next.

A delimiter is taken apart from its end to its front, and what is left over by each part carries the
proofs. Blank characters and names end where another character stands. With something left over in
front of the text behind (`rest ≠ []`), that character is in the shorter text, too, and they end in
the same place. For attributes this is not enough, as they end at a brace that the end of a comment
follows; so that end has to be in the shorter text (`Mark.splitAttributes?_of_append`).

Places are counted in bytes, as errors count them. `CutsAt` keeps the cuts of both parts beside that
of the whole text, since texts that are cut by themselves need not be cut so once they are joined.
-/

namespace PostBlocks

namespace Mark

/-! ### Delimiters without what follows them -/

section

variable {cs rest t : List Char}

theorem eq_nil_of_append_suffix (h : rest ++ t <:+ t) : rest = [] := by
  have hlen := h.length_le
  rw [List.length_append] at hlen
  exact List.length_eq_zero_iff.1 (by omega)

/-- Where something stands in front of a text's end, that end is left off a longer part, too. -/
theorem exists_append_of_suffix (h : rest ++ t <:+ cs) (hne : rest ≠ []) :
    ∃ ds, ds ≠ [] ∧ cs = ds ++ t := by
  obtain ⟨front, rfl⟩ := h
  exact ⟨front ++ rest, List.append_ne_nil_of_right_ne_nil _ hne, (List.append_assoc ..).symm⟩

/-- A lead-in is found without the text behind what follows it. It has a fixed length, so nothing
has to be left over; the parts of a delimiter below end where another character stands, and there it
does. -/
theorem after?_of_append {lead : List Char} (h : Text.after? lead (cs ++ t) = some (rest ++ t)) :
    Text.after? lead cs = some rest := by
  rw [Text.after?_eq_some_iff, ← List.append_assoc] at h
  exact Text.after?_eq_some_iff.2 (List.append_cancel_right h)

/-- Blank characters could go on in the text behind; with something left over in front of it, they
do not. -/
theorem skipBlank?_of_append (hne : rest ≠ []) (h : Text.skipBlank? (cs ++ t) = some (rest ++ t)) :
    Text.skipBlank? cs = some rest := by
  match cs, h with
  | [], h => exact absurd (eq_nil_of_append_suffix (suffix_skipBlank? h)) hne
  | c :: cs, h =>
    rw [List.cons_append, Text.skipBlank?, Option.ite_none_right_eq_some, Option.some.injEq] at h
    obtain ⟨hc, h⟩ := h
    have hdrop : cs.dropWhile Text.isBlank ≠ [] := by
      intro hnil
      rw [List.dropWhile_append, hnil, if_pos List.isEmpty_nil] at h
      exact hne (eq_nil_of_append_suffix (h ▸ List.dropWhile_suffix _))
    rw [dropWhile_append_of_ne_nil t hdrop] at h
    rw [Text.skipBlank?, if_pos hc, List.append_cancel_right h]

theorem takeSlash_of_append (hne : rest ≠ []) (h : (takeSlash (cs ++ t)).2 = rest ++ t) :
    takeSlash cs = ((takeSlash (cs ++ t)).1, rest) := by
  have hcs : cs ≠ [] := by
    rintro rfl
    exact hne (eq_nil_of_append_suffix (h ▸ suffix_takeSlash t))
  rw [takeSlash_append t hcs] at h ⊢
  rw [← List.append_cancel_right h]

/-- A name could go on in the text behind, too, and the blank characters after it. -/
theorem afterName?_of_append (hne : rest ≠ []) (h : afterName? (cs ++ t) = some (rest ++ t)) :
    afterName? cs = some rest
      ∧ (cs ++ t).takeWhile BlockName.isNameChar = cs.takeWhile BlockName.isNameChar := by
  rw [afterName?, Option.ite_none_right_eq_some] at h
  obtain ⟨hname, h⟩ := h
  have hdrop : cs.dropWhile BlockName.isNameChar ≠ [] := by
    intro hnil
    rw [List.dropWhile_append, hnil, if_pos List.isEmpty_nil] at h
    exact hne (eq_nil_of_append_suffix ((suffix_skipBlank? h).trans (List.dropWhile_suffix _)))
  have htake := takeWhile_append_of_ne_nil t hdrop
  rw [htake] at hname
  rw [dropWhile_append_of_ne_nil t hdrop] at h
  exact ⟨by rw [afterName?, if_pos hname, skipBlank?_of_append hne h], htake⟩

/-- What precedes the attributes of a delimiter is the same without the text behind them. -/
theorem header?_of_append {name : List Char} {isCloser : Bool} (hne : rest ≠ [])
    (h : header? (cs ++ t) = some (isCloser, name, rest ++ t)) :
    header? cs = some (isCloser, name, rest) := by
  simp only [header?, Option.bind_eq_bind, Option.bind_eq_some_iff, pure, Option.some.injEq,
    Prod.mk.injEq] at h
  obtain ⟨c₁, h₁, c₂, h₂, c₃, h₃, _, h₄, rfl, rfl, rfl⟩ := h
  -- from the end to the front, each part keeps the text behind it
  obtain ⟨d₃, hne₃, rfl⟩ := exists_append_of_suffix (suffix_afterName? h₄) hne
  obtain ⟨d, hned, hd⟩ := exists_append_of_suffix (suffix_after? h₃) hne₃
  obtain ⟨d₂, hne₂, rfl⟩ := exists_append_of_suffix (hd ▸ suffix_takeSlash c₂) hned
  obtain ⟨d₁, hne₁, rfl⟩ := exists_append_of_suffix (suffix_skipBlank? h₂) hne₂
  obtain ⟨hname, htake⟩ := afterName?_of_append hne h₄
  rw [hd] at h₃
  simp only [header?, after?_of_append h₁, skipBlank?_of_append hne₂ h₂,
    takeSlash_of_append hned hd, after?_of_append h₃, hname, htake, Option.bind_eq_bind,
    Option.bind_some, pure]

/-- The blank characters and the end of the comment that follow the brace. -/
theorem afterAttributes?_of_append (hends : endsComment rest = true)
    (h : afterAttributes? (cs ++ t) = some (rest ++ t)) : afterAttributes? cs = some rest := by
  obtain ⟨blanks, hne, hblanks, -, hcs⟩ := afterAttributes?_eq_some_iff.1 h
  rw [← List.append_assoc] at hcs
  exact afterAttributes?_eq_some_iff.2 ⟨blanks, hne, hblanks, hends, List.append_cancel_right hcs⟩

theorem ne_nil_of_endsComment (h : endsComment rest = true) : rest ≠ [] := by
  obtain ⟨c, ds, rfl, -⟩ := eq_cons_of_endsComment h
  exact List.cons_ne_nil c ds

/-- The attributes end at the first brace with the end of a comment behind it. If the shorter text
has such a brace at all, the longer one has it, so both end there. -/
theorem splitAttributes?_of_append {json : List Char} (hends : endsComment rest = true)
    (h : splitAttributes? (cs ++ t) = some (json, rest ++ t)) :
    splitAttributes? cs = some (json, rest) := by
  cases hcs : splitAttributes? cs with
  | some split =>
    have happend := splitAttributes?_append_of_some t hcs
    rw [h, Option.some.injEq, Prod.mk.injEq] at happend
    rw [happend.1, List.append_cancel_right happend.2]
  | none =>
    -- the brace that ends the attributes in the text ends them in front of the part left off
    obtain ⟨front, tail, heq, hafter⟩ := exists_brace_of_splitAttributes? h
    obtain ⟨ds, -, rfl⟩ :=
      exists_append_of_suffix (suffix_afterAttributes? hafter) (ne_nil_of_endsComment hends)
    have hsuffix : '}' :: ds <:+ cs := by
      rw [← List.cons_append, ← List.append_assoc] at heq
      rw [List.append_cancel_right heq]
      exact List.suffix_append front _
    have hnone := splitAttributes?_eq_none_iff.1 hcs ds hsuffix
    rw [afterAttributes?_of_append hends hafter] at hnone
    cases hnone

/-- Attributes that are absent are absent in the shorter text, too, since it is not empty and starts
with the same character. -/
theorem takeAttributes?_of_append {json : Option (List Char)} (hends : endsComment rest = true)
    (h : takeAttributes? (cs ++ t) = some (json, rest ++ t)) :
    cs ≠ [] ∧ takeAttributes? cs = some (json, rest) := by
  have hne : cs ≠ [] := by
    rintro rfl
    exact ne_nil_of_endsComment hends (eq_nil_of_append_suffix (suffix_takeAttributes? h))
  refine ⟨hne, ?_⟩
  have hhead : (cs ++ t).head? = cs.head? := List.head?_append_of_ne_nil _ hne
  by_cases hbrace : cs.head? = some '{'
  · obtain ⟨cs, rfl⟩ := List.head?_eq_some_iff.1 hbrace
    obtain ⟨⟨text, rest'⟩, hs, heq⟩ := Option.map_eq_some_iff.1 h
    obtain ⟨rfl, rfl⟩ := Prod.mk.inj heq
    show (splitAttributes? ('{' :: cs)).map _ = _
    rw [splitAttributes?_of_append hends hs]
    rfl
  · rw [takeAttributes?_of_head? (hhead ▸ hbrace), Option.some.injEq, Prod.mk.injEq] at h
    rw [takeAttributes?_of_head? hbrace, h.1, List.append_cancel_right h.2]

/-- What follows a delimiter ends the text in which the delimiter's attributes were looked for. -/
theorem suffix_footer? {json : Option (List Char)} {isVoid : Bool}
    (h : footer? cs = some (json, isVoid, rest)) : rest <:+ cs := by
  simp only [footer?, Option.bind_eq_bind, Option.bind_eq_some_iff, pure, Option.some.injEq,
    Prod.mk.injEq] at h
  obtain ⟨_, h₁, _, h₂, -, -, rfl⟩ := h
  exact (suffix_after? h₂).trans ((suffix_takeSlash _).trans (suffix_takeAttributes? h₁))

/-- The attributes of a delimiter and its end are the same without the text behind it. -/
theorem footer?_of_append {json : Option (List Char)} {isVoid : Bool}
    (h : footer? (cs ++ t) = some (json, isVoid, rest ++ t)) :
    cs ≠ [] ∧ footer? cs = some (json, isVoid, rest) := by
  simp only [footer?, Option.bind_eq_bind, Option.bind_eq_some_iff, pure, Option.some.injEq,
    Prod.mk.injEq] at h
  obtain ⟨⟨json', c₁⟩, h₁, _, h₂, rfl, rfl, rfl⟩ := h
  have hclose : (takeSlash c₁).2 = (commentClose ++ rest) ++ t := by
    rw [Text.after?_eq_some_iff.1 h₂, List.append_assoc]
  have hne : commentClose ++ rest ≠ [] := List.append_ne_nil_of_left_ne_nil (by decide) _
  obtain ⟨d, -, rfl⟩ := exists_append_of_suffix (hclose ▸ suffix_takeSlash c₁) hne
  have hslash := takeSlash_of_append hne hclose
  have hends : endsComment d = true := by
    obtain ⟨isThere, hd⟩ := exists_slash_of_takeSlash d
    rw [hd, hslash]
    cases isThere <;> rfl
  obtain ⟨hcs, hattrs⟩ := takeAttributes?_of_append hends h₁
  refine ⟨hcs, ?_⟩
  simp only [footer?, hattrs, hslash, after?_append, Option.bind_eq_bind, Option.bind_some, pure]

/-- A delimiter is the same without the text behind it. -/
theorem scan?_of_append {m : Mark} (h : scan? (cs ++ t) = some (m, rest ++ t)) :
    scan? cs = some (m, rest) := by
  obtain ⟨isCloser, isVoid, name, json, after, hheader, hfooter, rfl⟩ := exists_parts_of_scan? h
  obtain ⟨front, rfl⟩ := suffix_footer? hfooter
  rw [← List.append_assoc] at hheader hfooter
  obtain ⟨hne, hfooter⟩ := footer?_of_append hfooter
  exact scan?_of_parts (header?_of_append hne hheader) hfooter

end

end Mark

/-- Markup that stays literal does so when less follows it. -/
theorem StaysLiteral.of_append {html rest t : List Char} (h : StaysLiteral html (rest ++ t)) :
    StaysLiteral html rest := by
  intro ds hds hne
  refine Option.eq_none_iff_forall_ne_some.2 fun ⟨m, after⟩ hscan ↦ ?_
  have hscan := Mark.scan?_append_of_some t hscan
  rw [List.append_assoc, h ds hds hne] at hscan
  cases hscan

/-! ### Places in a cut text -/

/-- A text is cut into some chunks in front of a place and some behind it, and so is each of its two
parts by itself. Places are counted in bytes. -/
def CutsAt (cs : List Char) (offset : Nat) (js ks : List Chunk) : Prop :=
  ∃ front rest, cs = front ++ rest ∧ Text.byteSize front = offset
    ∧ Cuts front js ∧ Cuts rest ks ∧ Cuts cs (js ++ ks)

namespace CutsAt

variable {cs : List Char} {offset : Nat} {js ks : List Chunk}

theorem cuts (h : CutsAt cs offset js ks) : Cuts cs (js ++ ks) := by
  obtain ⟨-, -, -, -, -, -, hcuts⟩ := h
  exact hcuts

/-- The place in front of all chunks. -/
theorem zero (h : Cuts cs ks) : CutsAt cs 0 [] ks :=
  ⟨[], cs, rfl, rfl, .nil, h, h⟩

/-- A delimiter in front moves a place by its length in bytes. It is read without what lies behind
the place, so the front part is cut as before. -/
theorem mark {w : List Char} {m : Mark} (hscan : Mark.scan? (w ++ cs) = some (m, cs))
    (h : CutsAt cs offset js ks) :
    CutsAt (w ++ cs) (Text.byteSize w + offset) (.mark m :: js) ks := by
  obtain ⟨front, rest, rfl, rfl, hfront, hrest, hcs⟩ := h
  refine ⟨w ++ front, rest, (List.append_assoc ..).symm, Text.byteSize_append .., ?_, hrest,
    .mark hscan hcs⟩
  rw [← List.append_assoc] at hscan
  exact .mark (Mark.scan?_of_append hscan) hfront

/-- Literal markup in front moves a place by its length in bytes, and in the front part it is
literal, too, as less follows it there. -/
theorem ofLiteral {html : List Char} (hstays : StaysLiteral html cs)
    (hnext : ∀ k ∈ (js ++ ks).head?, ¬k.IsLiteral) (h : CutsAt cs offset js ks) :
    CutsAt (html ++ cs) (Text.byteSize html + offset) (Chunk.ofLiteral html ++ js) ks := by
  match html, hstays with
  | [], _ =>
    rw [Text.byteSize_nil, Nat.zero_add]
    exact h
  | c :: html, hstays =>
    obtain ⟨front, rest, rfl, rfl, hfront, hrest, hcs⟩ := h
    have hne : c :: html ≠ [] := List.cons_ne_nil c html
    refine ⟨c :: html ++ front, rest, (List.append_assoc ..).symm, Text.byteSize_append .., ?_,
      hrest, .literal hne hstays hnext hcs⟩
    -- what comes next in front of the place is what comes next in all of the text
    refine .literal hne hstays.of_append (fun k (hk : k ∈ js.head?) ↦ hnext k ?_) hfront
    rw [List.head?_append, Option.mem_def.1 hk]
    rfl

/-- The place behind all chunks. -/
theorem whole (h : Cuts cs ks) : CutsAt cs (Text.byteSize cs) ks [] :=
  ⟨cs, [], (List.append_nil cs).symm, rfl, h, .nil, by rwa [List.append_nil]⟩

end CutsAt

/-- The first segment of a text is its literal markup and its delimiter, and what follows has the
others. -/
theorem Segments.ofChars_eq_cons_iff {cs : List Char} {s : Segment} {ss : List Segment}
    {tail : List Char} : ofChars cs = ⟨s :: ss, tail⟩ ↔
      ∃ rest, cs = s.literal ++ (s.written ++ rest) ∧ StaysLiteral s.literal (s.written ++ rest)
        ∧ Mark.scan? (s.written ++ rest) = some (s.mark, rest) ∧ ofChars rest = ⟨ss, tail⟩ := by
  constructor
  · intro h
    fun_induction ofChars cs generalizing s with
    | case1 cs m rest hscan =>
      obtain ⟨taken, -, rfl⟩ := Mark.suffix_scan? hscan
      rw [List.length_append, Nat.add_sub_cancel, List.take_left] at h
      obtain ⟨hs, rfl⟩ := Segments.mk.inj h
      obtain ⟨rfl, rfl⟩ := List.cons.inj hs
      exact ⟨rest, rfl, staysLiteral_nil _, hscan, rfl⟩
    | case2 => cases h
    | case3 c cs hnone ih =>
      generalize ofChars cs = cut at h ih
      obtain ⟨_ | ⟨s', ss'⟩, tail'⟩ := cut
      · cases h
      · obtain ⟨hs, rfl⟩ := Segments.mk.inj h
        obtain ⟨rfl, rfl⟩ := List.cons.inj hs
        obtain ⟨rest, rfl, hstays, hscan, hrest⟩ := ih rfl
        exact ⟨rest, rfl, hstays.cons hnone, hscan, hrest⟩
  · rintro ⟨rest, rfl, hstays, hscan, hrest⟩
    obtain ⟨html, m, written⟩ := s
    induction html with
    | nil =>
      rw [List.nil_append, ofChars.eq_def]
      split
      · next hscan' =>
        rw [hscan, Option.some.injEq, Prod.mk.injEq] at hscan'
        obtain ⟨rfl, rfl⟩ := hscan'
        rw [hrest, List.length_append, Nat.add_sub_cancel, List.take_left]
      · next hnone =>
        rw [hscan] at hnone
        cases hnone
    | cons c html ih =>
      have hnone : Mark.scan? (c :: (html ++ (written ++ rest))) = none :=
        hstays _ List.suffix_rfl (List.cons_ne_nil c html)
      have hothers : ofChars (html ++ (written ++ rest)) = ⟨⟨html, m, written⟩ :: ss, tail⟩ :=
        ih (fun ds hds ↦ hstays ds (hds.trans (List.suffix_cons c html))) hscan
      show ofChars (c :: (html ++ (written ++ rest))) = _
      rw [ofChars_eq_push hnone, hothers, push]

end PostBlocks
