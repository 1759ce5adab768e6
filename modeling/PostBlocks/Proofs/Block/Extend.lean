import PostBlocks.Proofs.Block.Literal
import PostBlocks.Proofs.Text.Ends

/-!
# Delimiters in front of more text

What is a delimiter at the front of a text is the same delimiter when more text follows
(`scan?_append_of_some`). What is none may become one, but in one way only: it opens attributes that
nothing in the text ends (`LeavesOpen`), and the text that follows ends them
(`scan?_append_eq_none`). A comment that leaves its attributes open is literal markup: it stands
behind every delimiter of the text (`LeavesOpen.suffix`).

All parts of a delimiter but its attributes are read up to a character that ends them, and with one
left over they do not go on. Attributes end at the first brace that the end of a comment follows. A
brace that none follows yet may come to end them when there is more text, but not if another brace
stands in between (`afterAttributes?_append_of_mem`), so all but the last brace of a text are
settled.
-/

namespace PostBlocks

namespace Mark

/-! ### Delimiters in front of more text -/

section

variable {cs rest : List Char} (t : List Char)

theorem after?_append_of_some {lead : List Char} (h : Text.after? lead cs = some rest) :
    Text.after? lead (cs ++ t) = some (rest ++ t) := by
  rw [Text.after?_eq_some_iff] at h ⊢
  rw [h, List.append_assoc]

theorem dropWhile_append_of_ne_nil {p : Char → Bool} (h : cs.dropWhile p ≠ []) :
    (cs ++ t).dropWhile p = cs.dropWhile p ++ t := by
  rw [List.dropWhile_append, if_neg (by simpa using h)]

theorem takeWhile_append_of_ne_nil {p : Char → Bool} (h : cs.dropWhile p ≠ []) :
    (cs ++ t).takeWhile p = cs.takeWhile p := by
  have hlen : (cs.takeWhile p).length ≠ cs.length := fun hlen ↦ h <| by
    have := congrArg List.length (List.takeWhile_append_dropWhile (p := p) (l := cs))
    rw [List.length_append] at this
    exact List.length_eq_zero_iff.1 (by omega)
  rw [List.takeWhile_append, if_neg hlen]

/-- Blank characters with something behind them do not go on in the text that follows. -/
theorem skipBlank?_append_of_some (hne : rest ≠ []) (h : Text.skipBlank? cs = some rest) :
    Text.skipBlank? (cs ++ t) = some (rest ++ t) := by
  obtain ⟨c, ds, rfl, hc, rfl⟩ := Text.skipBlank?_eq_some_iff.1 h
  rw [List.cons_append, Text.skipBlank?, if_pos hc, dropWhile_append_of_ne_nil t hne]

/-- One character settles whether there is a slash, so there has to be one. -/
theorem takeSlash_append (hne : cs ≠ []) :
    takeSlash (cs ++ t) = ((takeSlash cs).1, (takeSlash cs).2 ++ t) := by
  obtain ⟨c, cs, rfl⟩ := List.exists_cons_of_ne_nil hne
  rw [List.cons_append]
  unfold takeSlash
  split
  · next h =>
    obtain ⟨rfl, rfl⟩ := List.cons.inj h
    rfl
  · next h =>
    split
    · next h' =>
      obtain ⟨rfl, rfl⟩ := List.cons.inj h'
      exact absurd rfl (h _)
    · rfl

/-- A name with something behind it, and its blank characters, are the same in front of more text.
-/
theorem afterName?_append_of_some (hne : rest ≠ []) (h : afterName? cs = some rest) :
    afterName? (cs ++ t) = some (rest ++ t)
      ∧ (cs ++ t).takeWhile BlockName.isNameChar = cs.takeWhile BlockName.isNameChar := by
  rw [afterName?, Option.ite_none_right_eq_some] at h
  obtain ⟨hname, h⟩ := h
  have hdrop : cs.dropWhile BlockName.isNameChar ≠ [] := by
    intro hnil
    rw [hnil] at h
    cases h
  have htake := takeWhile_append_of_ne_nil t hdrop
  refine ⟨?_, htake⟩
  rw [afterName?, htake, if_pos hname, dropWhile_append_of_ne_nil t hdrop]
  exact skipBlank?_append_of_some t hne h

theorem ne_nil_of_after? {lead : List Char} (hlead : lead ≠ [])
    (h : Text.after? lead cs = some rest) : cs ≠ [] := by
  rintro rfl
  exact hlead (List.append_eq_nil_iff.1 (Text.after?_eq_some_iff.1 h).symm).1

/-- What precedes the attributes of a delimiter is the same when more text follows. -/
theorem header?_append_of_some {name : List Char} {isCloser : Bool} (hne : rest ≠ [])
    (h : header? cs = some (isCloser, name, rest)) :
    header? (cs ++ t) = some (isCloser, name, rest ++ t) := by
  simp only [header?, Option.bind_eq_bind, Option.bind_eq_some_iff, pure, Option.some.injEq,
    Prod.mk.injEq] at h
  obtain ⟨c₁, h₁, c₂, h₂, c₃, h₃, c₄, h₄, rfl, rfl, rfl⟩ := h
  -- something follows each part
  have hne₂ : c₂ ≠ [] := by
    rintro rfl
    exact ne_nil_of_after? (by decide) h₃ rfl
  obtain ⟨hafter, htake⟩ := afterName?_append_of_some t hne h₄
  simp only [header?, after?_append_of_some t h₁, skipBlank?_append_of_some t hne₂ h₂,
    takeSlash_append t hne₂, after?_append_of_some t h₃, hafter, htake, Option.bind_eq_bind,
    Option.bind_some, pure]

theorem brace_mem_of_splitAttributes? {json : List Char}
    (h : splitAttributes? cs = some (json, rest)) : '}' ∈ cs := by
  fun_induction splitAttributes? cs generalizing json rest with
  | case1 => cases h
  | case2 => exact List.mem_cons_self
  | case3 => exact List.mem_cons_self
  | case4 _ _ _ ih =>
    obtain ⟨⟨_, _⟩, hs, -⟩ := Option.map_eq_some_iff.1 h
    exact List.mem_cons_of_mem _ (ih hs)

/-- A brace that cannot end attributes cannot do so when more text follows another brace. -/
theorem afterAttributes?_append_of_mem (hmem : '}' ∈ cs) (h : afterAttributes? cs = none) :
    afterAttributes? (cs ++ t) = none := by
  refine Option.eq_none_iff_forall_ne_some.2 fun after hafter ↦ ?_
  obtain ⟨blanks, hne, hblanks, hends, heq⟩ := afterAttributes?_eq_some_iff.1 hafter
  -- the end of the comment stands in front of that brace
  have hends' : ∃ close tail, after = close ++ tail ∧ '}' ∉ close
      ∧ ∀ tail', endsComment (close ++ tail') = true := by
    simp only [endsComment, Bool.or_eq_true, List.isPrefixOf_iff_prefix] at hends
    rcases hends with ⟨tail, rfl⟩ | ⟨tail, rfl⟩
    · exact ⟨_, tail, rfl, by decide, fun _ ↦ by simp [endsComment]⟩
    · exact ⟨_, tail, rfl, by decide, fun _ ↦ by simp [endsComment]⟩
  obtain ⟨close, tail, rfl, hclose, hends'⟩ := hends'
  have hbrace : '}' ∉ blanks ++ close := by
    rw [List.mem_append, not_or]
    exact ⟨fun hb ↦ absurd (hblanks _ hb) (by decide), hclose⟩
  have hprefix : blanks ++ close <+: cs := by
    have hstart : blanks ++ close <+: cs ++ t := ⟨tail, by rw [heq, List.append_assoc]⟩
    rcases List.prefix_or_prefix_of_prefix hstart (List.prefix_append cs t) with hp | hp
    · exact hp
    · exact absurd (hp.subset hmem) hbrace
  obtain ⟨tail', rfl⟩ := hprefix
  rw [afterAttributes?_eq_some_iff.2 ⟨blanks, hne, hblanks, hends' tail',
    List.append_assoc _ _ _⟩] at h
  cases h

/-- Attributes end where they end when more text follows. -/
theorem splitAttributes?_append_of_some {json : List Char}
    (h : splitAttributes? cs = some (json, rest)) :
    splitAttributes? (cs ++ t) = some (json, rest ++ t) := by
  fun_induction splitAttributes? cs generalizing json rest with
  | case1 => cases h
  | case2 cs after hafter =>
    cases h
    rw [List.cons_append, splitAttributes?, if_pos rfl, afterAttributes?_append_of_some hafter]
  | case3 cs hafter ih =>
    obtain ⟨⟨_, _⟩, hs, h⟩ := Option.map_eq_some_iff.1 h
    cases h
    have hnone := afterAttributes?_append_of_mem t (brace_mem_of_splitAttributes? hs) hafter
    rw [List.cons_append, splitAttributes?, if_pos rfl, hnone]
    simp only [ih hs, Option.map_some]
  | case4 c cs hc ih =>
    obtain ⟨⟨_, _⟩, hs, h⟩ := Option.map_eq_some_iff.1 h
    cases h
    rw [List.cons_append, splitAttributes?, if_neg hc, ih hs, Option.map_some]

/-- What a delimiter goes on with from its attributes is the same when more text follows. -/
theorem footer?_append_of_some {json : Option (List Char)} {isVoid : Bool}
    (h : footer? cs = some (json, isVoid, rest)) :
    cs ≠ [] ∧ footer? (cs ++ t) = some (json, isVoid, rest ++ t) := by
  simp only [footer?, Option.bind_eq_bind, Option.bind_eq_some_iff, pure, Option.some.injEq,
    Prod.mk.injEq] at h
  obtain ⟨⟨json', c₁⟩, h₁, c₂, h₂, rfl, rfl, rfl⟩ := h
  have hne₁ : c₁ ≠ [] := by
    rintro rfl
    exact ne_nil_of_after? (by decide) h₂ rfl
  have hne : cs ≠ [] := fun hnil ↦
    hne₁ (List.suffix_nil.1 (hnil ▸ suffix_takeAttributes? h₁))
  have h₁' : takeAttributes? (cs ++ t) = some (json', c₁ ++ t) := by
    obtain ⟨c, cs, rfl⟩ := List.exists_cons_of_ne_nil hne
    -- whether there are attributes shows in the first character
    by_cases hc : c = '{'
    · subst hc
      obtain ⟨⟨_, _⟩, hs, h⟩ := Option.map_eq_some_iff.1 h₁
      cases h
      exact Option.map_eq_some_iff.2 ⟨_, splitAttributes?_append_of_some t hs, rfl⟩
    · have hhead : ∀ ds : List Char, (c :: ds).head? ≠ some '{' := fun ds heq ↦
        hc (Option.some.inj heq)
      rw [takeAttributes?_of_head? (hhead cs)] at h₁
      cases h₁
      exact takeAttributes?_of_head? (hhead (cs ++ t))
  refine ⟨hne, ?_⟩
  simp only [footer?, h₁', takeSlash_append t hne₁, after?_append_of_some t h₂,
    Option.bind_eq_bind, Option.bind_some, pure]

/-- A delimiter is the same delimiter when more text follows. -/
theorem scan?_append_of_some {m : Mark} (h : scan? cs = some (m, rest)) :
    scan? (cs ++ t) = some (m, rest ++ t) := by
  obtain ⟨isCloser, isVoid, name, json, after, hheader, hfooter, rfl⟩ := exists_parts_of_scan? h
  obtain ⟨hne, hfooter'⟩ := footer?_append_of_some t hfooter
  exact scan?_of_parts (header?_append_of_some t hne hheader) hfooter'

end

/-! ### Attributes that are left open -/

/-- A comment at the front of a text opens attributes that nothing in the text ends. -/
def LeavesOpen (cs : List Char) : Prop :=
  ∃ isCloser name rest, header? cs = some (isCloser, name, '{' :: rest)
    ∧ splitAttributes? ('{' :: rest) = none

/-- In this form the condition is decided by reading the text, not by looking at all that may
follow. -/
theorem leavesOpen_iff {cs : List Char} :
    LeavesOpen cs ↔ OpensAttributes cs ∧ scan? cs = none := by
  constructor
  · rintro ⟨isCloser, name, rest, hheader, hsplit⟩
    refine ⟨⟨isCloser, name, rest, hheader⟩, ?_⟩
    rw [scan?_eq, hheader]
    exact Option.map_eq_none_iff.2 (footer?_brace_eq_none_iff.2 hsplit)
  · rintro ⟨⟨isCloser, name, rest, hheader⟩, hscan⟩
    rw [scan?_eq, hheader] at hscan
    exact ⟨isCloser, name, rest, hheader,
      footer?_brace_eq_none_iff.1 (Option.map_eq_none_iff.1 hscan)⟩

theorem OpensAttributes.append {cs : List Char} (h : OpensAttributes cs) (t : List Char) :
    OpensAttributes (cs ++ t) := by
  obtain ⟨isCloser, name, rest, hheader⟩ := h
  exact ⟨isCloser, name, rest ++ t, header?_append_of_some t (List.cons_ne_nil _ _) hheader⟩

/-! A comment that leaves its attributes open is no part of a delimiter. -/

/-- A text is its slash, if there is one, and what follows. -/
theorem exists_slash_of_takeSlash (cs : List Char) :
    ∃ isThere, cs = slash isThere ++ (takeSlash cs).2 := by
  unfold takeSlash
  split
  · exact ⟨true, rfl⟩
  · exact ⟨false, rfl⟩

/-- What precedes the attributes of a delimiter has no `<` but the one it starts with, and no brace
that ends attributes. -/
theorem exists_front_of_header? {cs rest name : List Char} {isCloser : Bool}
    (h : header? cs = some (isCloser, name, rest)) :
    ∃ front, cs = '<' :: (front ++ rest) ∧ ∀ c ∈ front, c ≠ '<' ∧ c ≠ '}' := by
  simp only [header?, Option.bind_eq_bind, Option.bind_eq_some_iff, pure, Option.some.injEq,
    Prod.mk.injEq] at h
  obtain ⟨c₁, h₁, c₂, h₂, c₃, h₃, c₄, h₄, -, -, rfl⟩ := h
  obtain ⟨blanks, -, hblanks, rfl⟩ := exists_blanks_of_skipBlank? h₂
  obtain ⟨isThere, hslash⟩ := exists_slash_of_takeSlash c₂
  rw [afterName?, Option.ite_none_right_eq_some] at h₄
  obtain ⟨blanks', -, hblanks', hdrop⟩ := exists_blanks_of_skipBlank? h₄.2
  have hc₂ : c₂ = slash isThere ++ ("wp:".toList
      ++ (c₃.takeWhile BlockName.isNameChar ++ (blanks' ++ c₄))) := by
    rw [← hdrop, List.takeWhile_append_dropWhile, ← Text.after?_eq_some_iff.1 h₃, ← hslash]
  -- blank characters and those of names are neither brackets nor braces
  have hfree : ∀ c, Text.isBlank c = true ∨ BlockName.isNameChar c = true → c ≠ '<' ∧ c ≠ '}' := by
    intro c hc
    constructor <;> rintro rfl <;> revert hc <;> decide
  refine ⟨"!--".toList ++ blanks ++ slash isThere ++ "wp:".toList
    ++ c₃.takeWhile BlockName.isNameChar ++ blanks', ?_, ?_⟩
  · rw [Text.after?_eq_some_iff.1 h₁, hc₂]
    simp [commentOpen]
  · simp only [List.forall_mem_append]
    refine ⟨⟨⟨⟨⟨by simp, fun c hc ↦ hfree c (.inl (hblanks c hc))⟩, ?_⟩, by simp⟩,
      fun c hc ↦ hfree c (.inr (List.all_eq_true.1 List.all_takeWhile c hc))⟩,
      fun c hc ↦ hfree c (.inl (hblanks' c hc))⟩
    cases isThere <;> simp [slash]

/-- Attributes end with a brace that can end them. -/
theorem exists_brace_of_splitAttributes? {cs json rest : List Char}
    (h : splitAttributes? cs = some (json, rest)) :
    ∃ front tail, cs = front ++ '}' :: tail ∧ afterAttributes? tail = some rest := by
  fun_induction splitAttributes? cs generalizing json rest with
  | case1 => cases h
  | case2 cs _ hafter =>
    cases h
    exact ⟨[], cs, rfl, hafter⟩
  | case3 _ _ ih | case4 _ _ _ ih =>
    obtain ⟨⟨_, _⟩, hs, h⟩ := Option.map_eq_some_iff.1 h
    cases h
    obtain ⟨front, tail, rfl, hafter⟩ := ih hs
    exact ⟨_ :: front, tail, rfl, hafter⟩

/-- From a `<` on, what follows the attributes of a delimiter is the rest of the text. -/
theorem suffix_of_footer? {cs rest ds : List Char} {json : Option (List Char)} {isVoid : Bool}
    (h : footer? cs = some (json, isVoid, rest)) (hds : '<' :: ds <:+ cs)
    (hnone : ∀ tail, '}' :: tail <:+ '<' :: ds → afterAttributes? tail = none) :
    '<' :: ds <:+ rest := by
  simp only [footer?, Option.bind_eq_bind, Option.bind_eq_some_iff, pure, Option.some.injEq,
    Prod.mk.injEq] at h
  obtain ⟨⟨json', c₁⟩, h₁, c₂, h₂, -, -, rfl⟩ := h
  -- behind the attributes no `<` comes before the end of the comment
  have hend : '<' :: ds <:+ c₁ → '<' :: ds <:+ c₂ := by
    obtain ⟨isThere, hslash⟩ := exists_slash_of_takeSlash c₁
    rw [hslash, Text.after?_eq_some_iff.1 h₂, ← List.append_assoc]
    exact fun h ↦ Text.suffix_of_not_mem h (by cases isThere <;> decide)
  by_cases hbrace : cs.head? = some '{'
  · obtain ⟨cs, rfl⟩ := List.head?_eq_some_iff.1 hbrace
    obtain ⟨⟨_, _⟩, hs, h⟩ := Option.map_eq_some_iff.1 h₁
    cases h
    obtain ⟨front, tail, hcs, hafter⟩ := exists_brace_of_splitAttributes? hs
    obtain ⟨blanks, -, hblanks, -, rfl⟩ := afterAttributes?_eq_some_iff.1 hafter
    rw [hcs] at hds
    rcases List.suffix_or_suffix_of_suffix hds (List.suffix_append front _) with h | h
    · rw [← List.cons_append] at h
      refine hend (Text.suffix_of_not_mem h fun hmem ↦ ?_)
      rcases List.mem_cons.1 hmem with heq | hmem
      · cases heq
      · exact absurd (hblanks _ hmem) (by decide)
    · rw [hnone _ h] at hafter
      cases hafter
  · rw [takeAttributes?_of_head? hbrace] at h₁
    cases h₁
    exact hend hds

/-- A comment that leaves its attributes open stands behind every delimiter of the text. -/
theorem LeavesOpen.suffix {cs rest ds : List Char} {m : Mark} (hopen : LeavesOpen ds)
    (h : scan? cs = some (m, rest)) (hds : ds <:+ cs) : ds <:+ rest := by
  obtain ⟨isCloser, isVoid, name, json, after, hheader, hfooter, -⟩ := exists_parts_of_scan? h
  obtain ⟨isCloser', name', rest', hheader', hsplit⟩ := hopen
  obtain ⟨front, hcs, hfront⟩ := exists_front_of_header? hheader
  obtain ⟨front', rfl, hfront'⟩ := exists_front_of_header? hheader'
  rw [splitAttributes?_eq_none_iff] at hsplit
  -- no brace of the open comment can end attributes, those in its header least of all
  have hnone : ∀ tail, '}' :: tail <:+ '<' :: (front' ++ '{' :: rest') →
      afterAttributes? tail = none := by
    intro tail htail
    rcases List.suffix_cons_iff.1 htail with heq | htail
    · cases heq
    · exact hsplit tail (Text.suffix_of_not_mem htail fun hmem ↦ (hfront' _ hmem).2 rfl)
  refine suffix_of_footer? hfooter ?_ hnone
  rw [hcs] at hds
  rcases List.suffix_cons_iff.1 hds with heq | hds
  · -- the delimiter itself does not leave its attributes open
    rw [← hcs] at heq
    rw [← heq, hheader'] at hheader
    cases hheader
    rw [footer?_brace_eq_none_iff.2 (splitAttributes?_eq_none_iff.2 hsplit)] at hfooter
    cases hfooter
  · exact Text.suffix_of_not_mem hds fun hmem ↦ (hfront _ hmem).1 rfl

/-- Where there is no brace, attributes stay open. -/
theorem LeavesOpen.append_of_not_mem {cs t : List Char} (h : LeavesOpen cs) (ht : '}' ∉ cs ++ t) :
    LeavesOpen (cs ++ t) := by
  obtain ⟨isCloser, name, rest, hheader, -⟩ := h
  refine ⟨isCloser, name, rest ++ t, header?_append_of_some t (List.cons_ne_nil _ _) hheader, ?_⟩
  refine Option.eq_none_iff_forall_ne_some.2 fun x hx ↦ ht ?_
  have hsuffix : '{' :: rest ++ t <:+ cs ++ t :=
    List.suffix_append_self_iff.2 (suffix_header? hheader)
  exact hsuffix.subset (brace_mem_of_splitAttributes? hx)

/-- In front of a `<` only attributes that are left open can become a delimiter when more text
follows. -/
theorem scan?_append_eq_none {ds r t : List Char} (hne : ds ≠ [])
    (h : scan? (ds ++ '<' :: r) = none)
    (hopen : LeavesOpen (ds ++ '<' :: r) → LeavesOpen (ds ++ '<' :: r ++ t)) :
    scan? (ds ++ '<' :: r ++ t) = none := by
  by_cases hattrs : OpensAttributes ds
  · exact (leavesOpen_iff.1 (hopen (leavesOpen_iff.2 ⟨hattrs.append _, h⟩))).2
  · rw [List.append_assoc, List.cons_append, scan?_append_eq_none_iff hne]
    exact ⟨((scan?_append_eq_none_iff hne).1 h).1, fun h ↦ absurd h hattrs⟩

end Mark

end PostBlocks
