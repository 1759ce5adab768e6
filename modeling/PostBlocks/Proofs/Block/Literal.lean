import Mathlib.Tactic.ByContra
import PostBlocks.Proofs.Block.Delimiter

/-!
# What stays literal

Whether the front of a text is a delimiter depends on what follows it in one way only. A delimiter
starts with `<`, and nothing inside of one but attributes goes on past a `<`; so in front of a
delimiter a piece of markup is read as it would be read alone (`scan?_append_eq_none_iff`), unless
it opens attributes that it does not close. Then it is literal as long as no brace in the rest of
the text can end attributes, and `splitAttributes?` finds none in a text exactly when it finds none
in its parts (`splitAttributes?_append_lt_eq_none_iff`).
-/

namespace PostBlocks

namespace Mark

/-! ### Reading in front of a delimiter -/

section

variable (cs t : List Char)

theorem after?_append_lt {lead : List Char} (h : '<' ∉ lead) :
    Text.after? lead (cs ++ '<' :: t) = (Text.after? lead cs).map (· ++ '<' :: t) := by
  induction lead generalizing cs with
  | nil => rfl
  | cons l lead ih =>
    simp only [List.mem_cons, not_or] at h
    cases cs with
    | nil => rw [List.nil_append, Text.after?, if_neg (Ne.symm h.1)]; rfl
    | cons c cs =>
      rw [List.cons_append, Text.after?, Text.after?, ih cs h.2]
      split <;> rfl

/-- A stretch of characters other than `<` ends at one, so what follows has no part in it. -/
theorem dropWhile_append_lt {p : Char → Bool} (h : p '<' = false) :
    (cs ++ '<' :: t).dropWhile p = cs.dropWhile p ++ '<' :: t := by
  rw [List.dropWhile_append]
  split
  · next hnil =>
    rw [List.dropWhile_cons_of_neg (by simp [h]), List.isEmpty_iff.1 hnil, List.nil_append]
  · rfl

theorem takeWhile_append_lt {p : Char → Bool} (h : p '<' = false) :
    (cs ++ '<' :: t).takeWhile p = cs.takeWhile p := by
  induction cs with
  | nil => rw [List.nil_append, List.takeWhile_cons_of_neg (by simp [h])]; rfl
  | cons c cs ih => rw [List.cons_append, List.takeWhile_cons, List.takeWhile_cons, ih]

/-- Blank characters do not go past a `<`. -/
theorem skipBlank?_append_lt :
    Text.skipBlank? (cs ++ '<' :: t) = (Text.skipBlank? cs).map (· ++ '<' :: t) := by
  cases cs with
  | nil => rfl
  | cons c cs =>
    rw [List.cons_append, Text.skipBlank?, Text.skipBlank?, dropWhile_append_lt cs t (by decide)]
    split <;> rfl

theorem takeSlash_append_lt :
    takeSlash (cs ++ '<' :: t) = ((takeSlash cs).1, (takeSlash cs).2 ++ '<' :: t) := by
  unfold takeSlash
  split
  · next h =>
    cases cs with
    | nil => cases h
    | cons c cs =>
      obtain ⟨rfl, rfl⟩ := List.cons.inj h
      rfl
  · next h =>
    cases cs with
    | nil => rfl
    | cons c cs =>
      have hc : c ≠ '/' := fun hc ↦ h (cs ++ '<' :: t) (by rw [hc, List.cons_append])
      split
      · next h' => exact absurd (List.cons.inj h').1 hc
      · rfl

/-- Names and the blank characters behind them do not go past a `<`. -/
theorem afterName?_append_lt :
    afterName? (cs ++ '<' :: t) = (afterName? cs).map (· ++ '<' :: t) := by
  rw [afterName?, takeWhile_append_lt cs t (by decide), dropWhile_append_lt cs t (by decide),
    skipBlank?_append_lt, afterName?]
  split <;> rfl

/-- What precedes the attributes of a delimiter does not go past a `<`, but for the one it starts
with. -/
theorem header?_append_lt {cs : List Char} (h : cs ≠ []) :
    header? (cs ++ '<' :: t)
      = (header? cs).map fun (isCloser, name, rest) ↦ (isCloser, name, rest ++ '<' :: t) := by
  have hopen : Text.after? commentOpen (cs ++ '<' :: t)
      = (Text.after? commentOpen cs).map (· ++ '<' :: t) := by
    cases cs with
    | nil => exact absurd rfl h
    | cons c cs =>
      rw [show commentOpen = '<' :: ['!', '-', '-'] from rfl, List.cons_append, Text.after?,
        Text.after?]
      split
      · exact after?_append_lt cs t (by decide)
      · rfl
  simp only [header?, Option.bind_eq_bind, hopen, Option.bind_map, Option.map_bind,
    Function.comp_def, skipBlank?_append_lt, takeSlash_append_lt,
    after?_append_lt _ t (show '<' ∉ "wp:".toList by decide), afterName?_append_lt, pure,
    Option.map_some, takeWhile_append_lt _ t (show BlockName.isNameChar '<' = false by decide)]

theorem isPrefixOf_append_lt {lead : List Char} (h : '<' ∉ lead) :
    lead.isPrefixOf (cs ++ '<' :: t) = lead.isPrefixOf cs := by
  induction lead generalizing cs with
  | nil => simp
  | cons l lead ih =>
    simp only [List.mem_cons, not_or] at h
    cases cs with
    | nil => simp [List.isPrefixOf, Ne.symm h.1]
    | cons c cs => rw [List.cons_append, List.isPrefixOf, List.isPrefixOf, ih cs h.2]

/-- The ends of a comment have no `<`. -/
theorem endsComment_append_lt : endsComment (cs ++ '<' :: t) = endsComment cs := by
  rw [endsComment, isPrefixOf_append_lt cs t (by decide), isPrefixOf_append_lt cs t (by decide),
    endsComment]

/-- Whether a brace can end attributes is settled in front of the next `<`. -/
theorem afterAttributes?_append_lt :
    afterAttributes? (cs ++ '<' :: t) = (afterAttributes? cs).map (· ++ '<' :: t) := by
  simp only [afterAttributes?, skipBlank?_append_lt]
  cases Text.skipBlank? cs with
  | none => rfl
  | some rest =>
    simp only [Option.map_some, endsComment_append_lt]
    split <;> rfl

end

/-! ### Braces that can end attributes -/

/-- The end of a comment starts with a visible character, so the blank characters in front of it are
all there are. -/
theorem eq_cons_of_endsComment {cs : List Char} (h : endsComment cs = true) :
    ∃ c ds, cs = c :: ds ∧ Text.isBlank c = false := by
  simp only [endsComment, Bool.or_eq_true, List.isPrefixOf_iff_prefix] at h
  rcases h with ⟨ds, rfl⟩ | ⟨ds, rfl⟩
  · exact ⟨'-', _, rfl, by decide⟩
  · exact ⟨'/', _, rfl, by decide⟩

theorem exists_blanks_of_skipBlank? {cs rest : List Char} (h : Text.skipBlank? cs = some rest) :
    ∃ blanks, blanks ≠ [] ∧ (∀ c ∈ blanks, Text.isBlank c = true) ∧ cs = blanks ++ rest := by
  obtain ⟨c, ds, rfl, hc, rfl⟩ := Text.skipBlank?_eq_some_iff.1 h
  refine ⟨c :: ds.takeWhile Text.isBlank, List.cons_ne_nil _ _,
    List.forall_mem_cons.2 ⟨hc, List.all_eq_true.1 List.all_takeWhile⟩, ?_⟩
  rw [List.cons_append, List.takeWhile_append_dropWhile]

/-- The end of a comment behind a brace: blank characters, at least one, and then the end. -/
theorem afterAttributes?_eq_some_iff {cs rest : List Char} :
    afterAttributes? cs = some rest ↔ ∃ blanks, blanks ≠ [] ∧ (∀ c ∈ blanks, Text.isBlank c = true)
      ∧ endsComment rest = true ∧ cs = blanks ++ rest := by
  constructor
  · intro h
    unfold afterAttributes? at h
    split at h
    · next rest' hskip =>
      simp only [Option.ite_none_right_eq_some, Option.some.injEq] at h
      obtain ⟨hends, rfl⟩ := h
      obtain ⟨blanks, hne, hblanks, hcs⟩ := exists_blanks_of_skipBlank? hskip
      exact ⟨blanks, hne, hblanks, hends, hcs⟩
    · cases h
  · rintro ⟨blanks, hne, hblanks, hends, rfl⟩
    obtain ⟨c, ds, rfl, hc⟩ := eq_cons_of_endsComment hends
    have hskip : Text.skipBlank? (blanks ++ c :: ds) = some (c :: ds) := by
      cases blanks with
      | nil => exact absurd rfl hne
      | cons b blanks =>
        obtain ⟨hb, hblanks⟩ := List.forall_mem_cons.1 hblanks
        rw [List.cons_append, Text.skipBlank?, if_pos hb, List.dropWhile_append_of_pos hblanks,
          List.dropWhile_cons_of_neg (by simp [hc])]
    simp only [afterAttributes?, hskip, if_pos hends]

/-- The end of a comment is seen whatever follows it. -/
theorem afterAttributes?_append_of_some {cs rest : List Char} (h : afterAttributes? cs = some rest)
    (ds : List Char) : afterAttributes? (cs ++ ds) = some (rest ++ ds) := by
  obtain ⟨blanks, hne, hblanks, hends, rfl⟩ := afterAttributes?_eq_some_iff.1 h
  refine afterAttributes?_eq_some_iff.2 ⟨blanks, hne, hblanks, ?_, List.append_assoc _ _ _⟩
  simp only [endsComment, Bool.or_eq_true, List.isPrefixOf_iff_prefix] at hends ⊢
  exact hends.imp (·.trans (List.prefix_append _ _)) (·.trans (List.prefix_append _ _))

/-- No attributes end in a text if none of its braces can end them. -/
theorem splitAttributes?_eq_none_iff {cs : List Char} :
    splitAttributes? cs = none ↔ ∀ ds, '}' :: ds <:+ cs → afterAttributes? ds = none := by
  induction cs with
  | nil => simp [splitAttributes?]
  | cons c cs ih =>
    simp only [List.suffix_cons_iff, List.cons.injEq]
    rw [splitAttributes?]
    split
    · next hc =>
      split
      · next hafter =>
        refine ⟨fun h ↦ absurd h (Option.some_ne_none _), fun h ↦ ?_⟩
        rw [h cs (.inl ⟨hc.symm, rfl⟩)] at hafter
        cases hafter
      · next hafter =>
        -- this brace ends nothing, so the search goes on behind it
        rw [Option.map_eq_none_iff, ih]
        refine ⟨fun h ds hds ↦ ?_, fun h ds hds ↦ h ds (.inr hds)⟩
        rcases hds with ⟨-, rfl⟩ | hds
        · exact hafter
        · exact h ds hds
    · next hc =>
      rw [Option.map_eq_none_iff, ih]
      refine ⟨fun h ds hds ↦ ?_, fun h ds hds ↦ h ds (.inr hds)⟩
      rcases hds with ⟨hc', -⟩ | hds
      · exact absurd hc'.symm hc
      · exact h ds hds

/-- Where no attributes end in a text, none end in a part of it. -/
theorem splitAttributes?_eq_none_of_append {cs ds : List Char}
    (h : splitAttributes? (cs ++ ds) = none) :
    splitAttributes? cs = none ∧ splitAttributes? ds = none := by
  rw [splitAttributes?_eq_none_iff] at h
  refine ⟨splitAttributes?_eq_none_iff.2 fun es hes ↦ ?_,
    splitAttributes?_eq_none_iff.2 fun es hes ↦ h es (hes.trans (List.suffix_append _ _))⟩
  obtain ⟨fs, rfl⟩ := hes
  refine Option.eq_none_iff_forall_ne_some.2 fun rest hrest ↦ ?_
  have := h (es ++ ds) ⟨fs, by simp⟩
  rw [afterAttributes?_append_of_some hrest] at this
  cases this

/-- No attributes end across a `<`. -/
theorem splitAttributes?_append_lt_eq_none_iff {cs t : List Char} :
    splitAttributes? (cs ++ '<' :: t) = none
      ↔ splitAttributes? cs = none ∧ splitAttributes? ('<' :: t) = none := by
  refine ⟨splitAttributes?_eq_none_of_append, fun ⟨hcs, ht⟩ ↦ ?_⟩
  rw [splitAttributes?_eq_none_iff] at hcs ht ⊢
  rintro ds ⟨es, h⟩
  -- the brace stands in front of the `<`, or behind it
  rcases List.append_eq_append_iff.1 h with ⟨fs, hfs, h'⟩ | ⟨fs, rfl, hfs⟩
  · cases fs with
    | nil => cases h'
    | cons f fs =>
      obtain ⟨rfl, hds⟩ := List.cons.inj h'
      rw [show ds = fs ++ '<' :: t from hds, afterAttributes?_append_lt, hcs fs ⟨es, hfs.symm⟩,
        Option.map_none]
  · exact ht ds ⟨fs, hfs.symm⟩

/-! ### Delimiters in front of a `<` -/

theorem endsComment_of_splitAttributes? {cs json rest : List Char}
    (h : splitAttributes? cs = some (json, rest)) : endsComment rest = true := by
  fun_induction splitAttributes? cs generalizing json rest with
  | case1 => cases h
  | case2 _ _ hafter =>
    cases h
    obtain ⟨_, -, -, hends, -⟩ := afterAttributes?_eq_some_iff.1 hafter
    exact hends
  | case3 _ _ ih | case4 _ _ _ ih =>
    obtain ⟨⟨_, _⟩, hs, h⟩ := Option.map_eq_some_iff.1 h
    cases h
    exact ih hs

/-- Attributes are followed by the end of the comment as soon as they end. -/
theorem footer?_brace_eq_none_iff {cs : List Char} :
    footer? ('{' :: cs) = none ↔ splitAttributes? ('{' :: cs) = none := by
  cases hs : splitAttributes? ('{' :: cs) with
  | none => simp [footer?, takeAttributes?, hs]
  | some x =>
    obtain ⟨json, rest⟩ := x
    have hends := endsComment_of_splitAttributes? hs
    have hclose : ∃ after, Text.after? commentClose (takeSlash rest).2 = some after := by
      simp only [endsComment, Bool.or_eq_true, List.isPrefixOf_iff_prefix] at hends
      rcases hends with ⟨after, rfl⟩ | ⟨after, rfl⟩ <;> exact ⟨after, rfl⟩
    obtain ⟨after, hclose⟩ := hclose
    simp [footer?, takeAttributes?, hs, hclose]

/-- A delimiter without attributes ends in front of the next `<`, or not at all. -/
theorem footer?_append_lt {cs : List Char} (t : List Char) (h : cs.head? ≠ some '{') :
    footer? (cs ++ '<' :: t)
      = (footer? cs).map fun (json, isVoid, rest) ↦ (json, isVoid, rest ++ '<' :: t) := by
  have h' : (cs ++ '<' :: t).head? ≠ some '{' := by
    cases cs with
    | nil => exact fun hlt ↦ absurd (Option.some.inj hlt) (by decide)
    | cons c cs => exact h
  simp only [footer?, takeAttributes?_of_head? h, takeAttributes?_of_head? h', Option.bind_eq_bind,
    Option.bind_some, takeSlash_append_lt, pure,
    after?_append_lt _ t (show '<' ∉ commentClose by decide), Option.bind_map, Option.map_bind,
    Function.comp_def, Option.map_some]

/-- A text starts a delimiter up to its attributes, and these begin. -/
def OpensAttributes (cs : List Char) : Prop :=
  ∃ isCloser name rest, header? cs = some (isCloser, name, '{' :: rest)

/-- Some markup in front of a delimiter starts no delimiter itself: it starts none alone, and if it
opens attributes, then nothing that follows can end them. -/
theorem scan?_append_eq_none_iff {cs t : List Char} (h : cs ≠ []) :
    scan? (cs ++ '<' :: t) = none
      ↔ scan? cs = none ∧ (OpensAttributes cs → splitAttributes? ('<' :: t) = none) := by
  rw [scan?_eq, scan?_eq, header?_append_lt t h, OpensAttributes]
  cases hheader : header? cs with
  | none => simp
  | some x =>
    obtain ⟨isCloser, name, rest⟩ := x
    simp only [Option.map_some, Option.bind_some, Option.map_eq_none_iff, Option.some.injEq,
      Prod.mk.injEq]
    -- only attributes can go on past the `<`
    by_cases hbrace : rest.head? = some '{'
    · obtain ⟨rest, rfl⟩ : ∃ es, rest = '{' :: es := by
        cases rest with
        | nil => cases hbrace
        | cons c es => exact ⟨es, by rw [Option.some.inj hbrace]⟩
      rw [List.cons_append, footer?_brace_eq_none_iff, footer?_brace_eq_none_iff,
        ← List.cons_append, splitAttributes?_append_lt_eq_none_iff]
      simp
    · rw [footer?_append_lt t hbrace, Option.map_eq_none_iff]
      refine ⟨fun hnone ↦ ⟨hnone, ?_⟩, And.left⟩
      rintro ⟨_, _, _, -, -, rfl⟩
      exact absurd rfl hbrace

/-- What does not start a comment starts no delimiter and opens no attributes. -/
theorem header?_eq_none {cs : List Char} (h : ¬commentOpen <+: cs) : header? cs = none := by
  have hopen : Text.after? commentOpen cs = none :=
    Option.eq_none_iff_forall_ne_some.2 fun rest hrest ↦
      h ⟨rest, (Text.after?_eq_some_iff.1 hrest).symm⟩
  rw [header?, hopen]
  rfl

/-! ### What a recognized delimiter says -/

/-- A recognized delimiter is one of the two halves after the other. -/
theorem exists_parts_of_scan? {cs rest : List Char} {m : Mark} (h : scan? cs = some (m, rest)) :
    ∃ isCloser isVoid name json after, header? cs = some (isCloser, name, after)
      ∧ footer? after = some (json, isVoid, rest)
      ∧ m = ofParts isCloser isVoid (.ofList (BlockName.full name)) json := by
  rw [scan?_eq, Option.bind_eq_some_iff] at h
  obtain ⟨⟨isCloser, name, after⟩, hheader, h⟩ := h
  obtain ⟨⟨json, isVoid, rest'⟩, hfooter, h⟩ := Option.map_eq_some_iff.1 h
  cases h
  exact ⟨isCloser, isVoid, name, json, after, hheader, hfooter, rfl⟩

/-- A delimiter starts a comment. -/
theorem prefix_of_scan? {cs rest : List Char} {m : Mark} (h : scan? cs = some (m, rest)) :
    commentOpen <+: cs := by
  obtain ⟨_, _, _, _, _, hheader, -, -⟩ := exists_parts_of_scan? h
  by_contra hopen
  rw [header?_eq_none hopen] at hheader
  cases hheader

theorem suffix_header? {cs rest name : List Char} {isCloser : Bool}
    (h : header? cs = some (isCloser, name, rest)) : rest <:+ cs := by
  simp only [header?, Option.bind_eq_bind, Option.bind_eq_some_iff, pure, Option.some.injEq,
    Prod.mk.injEq] at h
  obtain ⟨_, h₁, _, h₂, _, h₃, _, h₄, -, -, rfl⟩ := h
  exact (suffix_afterName? h₄).trans <| (suffix_after? h₃).trans <| (suffix_takeSlash _).trans <|
    (suffix_skipBlank? h₂).trans (suffix_after? h₁)

/-- The name in a delimiter is a written one. -/
theorem isWritten_of_header? {cs rest name : List Char} {isCloser : Bool}
    (h : header? cs = some (isCloser, name, rest)) :
    BlockName.isWritten name = true ∧ ∀ c ∈ name, BlockName.isNameChar c = true := by
  simp only [header?, Option.bind_eq_bind, Option.bind_eq_some_iff, pure, Option.some.injEq,
    Prod.mk.injEq] at h
  obtain ⟨_, -, _, -, ds, -, _, h₄, -, rfl, -⟩ := h
  refine ⟨?_, List.all_eq_true.1 List.all_takeWhile⟩
  by_contra hwritten
  rw [afterName?, if_neg hwritten] at h₄
  cases h₄

/-- A delimiter has the name it is written with, and its attributes are those of its text. -/
theorem of_ofParts_eq_delimiter {isCloser isVoid : Bool} {name : String} {json : Option (List Char)}
    {d : Delimiter} (h : ofParts isCloser isVoid name json = .delimiter d) :
    d.name = name ∧ (json = none ∧ d.attrs = []
      ∨ ∃ text, json = some text ∧ Json.Fields.parse? text = some d.attrs) := by
  cases json with
  | none =>
    cases h
    exact ⟨rfl, .inl ⟨rfl, rfl⟩⟩
  | some text =>
    cases hparse : Json.Fields.parse? text with
    | none => simp [ofParts, hparse] at h
    | some attrs =>
      simp only [ofParts, hparse, delimiter.injEq] at h
      subst h
      exact ⟨rfl, .inr ⟨text, rfl, hparse⟩⟩

/-- A delimiter has a full name. -/
theorem isFull_of_scan? {cs rest : List Char} {d : Delimiter}
    (h : scan? cs = some (.delimiter d, rest)) : BlockName.IsFull d.name.toList := by
  obtain ⟨isCloser, isVoid, name, json, after, hheader, -, hm⟩ := exists_parts_of_scan? h
  obtain ⟨hwritten, hchars⟩ := isWritten_of_header? hheader
  have hname := (of_ofParts_eq_delimiter hm.symm).1
  rw [hname, String.toList_ofList]
  exact BlockName.isFull_full hwritten hchars

/-- The attributes of a delimiter repeat no key and nest no deeper than any text may. -/
theorem wellFormed_of_scan? {cs rest : List Char} {d : Delimiter}
    (h : scan? cs = some (.delimiter d, rest)) :
    (Json.object d.attrs).WellFormed ∧ (Json.object d.attrs).depth ≤ Json.maxDepth := by
  obtain ⟨isCloser, isVoid, name, json, after, -, -, hm⟩ := exists_parts_of_scan? h
  rcases (of_ofParts_eq_delimiter hm.symm).2 with ⟨-, hattrs⟩ | ⟨text, -, hparse⟩
  · rw [hattrs]
    exact ⟨⟨List.nodup_nil, trivial⟩, by decide⟩
  · exact Json.wellFormed_of_parse? hparse

/-- A delimiter with attributes has a brace that can end them. -/
theorem attrs_eq_nil_of_scan? {cs rest : List Char} {d : Delimiter}
    (h : scan? cs = some (.delimiter d, rest)) (hend : splitAttributes? cs = none) :
    d.attrs = [] := by
  obtain ⟨isCloser, isVoid, name, json, after, hheader, hfooter, hm⟩ := exists_parts_of_scan? h
  obtain ⟨ds, rfl⟩ := suffix_header? hheader
  have hafter := (splitAttributes?_eq_none_of_append hend).2
  -- had there been attributes, they would have ended
  have hjson : json = none := by
    by_cases hbrace : after.head? = some '{'
    · cases after with
      | nil => cases hbrace
      | cons c es =>
        rw [Option.some.inj hbrace] at hfooter hafter
        rw [footer?_brace_eq_none_iff.2 hafter] at hfooter
        cases hfooter
    · simp only [footer?, takeAttributes?_of_head? hbrace, Option.bind_eq_bind, Option.bind_some,
        Option.bind_eq_some_iff, pure, Option.some.injEq, Prod.mk.injEq] at hfooter
      obtain ⟨_, -, rfl, -, -⟩ := hfooter
      rfl
  rcases (of_ofParts_eq_delimiter hm.symm).2 with ⟨-, hattrs⟩ | ⟨text, htext, -⟩
  · exact hattrs
  · rw [hjson] at htext
    cases htext

end Mark

end PostBlocks
