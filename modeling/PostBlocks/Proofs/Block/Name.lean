import PostBlocks.Block.Name

/-!
# Full names and their written forms

A full name is two parts with a slash between them (`IsFull`). Its written form is a written name
that stands for it (`full_short`), and every written name stands for a full one (`isFull_full`).

Only the namespace that goes without saying is left out of a written name. A full name has one
slash, so what is left has none and is completed again; a name with more than one slash is no
written name, which is what keeps the two forms apart (`isPart_or_isFull`).
-/

namespace PostBlocks.BlockName

/-- One part of a name: a letter, and letters, digits, hyphens and low lines after it. -/
def IsPart (cs : List Char) : Prop :=
  startsLower cs = true ∧ ∀ c ∈ cs, isPartChar c = true

/-- A full name: a namespace and a name in it, with a slash between them. -/
def IsFull (cs : List Char) : Prop :=
  ∃ space part, cs = space ++ '/' :: part ∧ IsPart space ∧ IsPart part

instance (cs : List Char) : Decidable (IsPart cs) :=
  decidable_of_iff (startsLower cs = true ∧ cs.all isPartChar = true) (by
    rw [IsPart, List.all_eq_true])

theorem isFull_append {space part : List Char} (hs : IsPart space) (hp : IsPart part) :
    IsFull (space ++ '/' :: part) :=
  ⟨space, part, rfl, hs, hp⟩

theorem IsPart.slash_not_mem {cs : List Char} (h : IsPart cs) : '/' ∉ cs :=
  fun hmem ↦ absurd (h.2 _ hmem) (by decide)

/-- A name may have what its parts may have, and slashes besides (`isPartChar_of_isNameChar`). -/
theorem isNameChar_of_isPartChar {c : Char} (h : isPartChar c = true) : isNameChar c = true := by
  rw [isNameChar, h, Bool.true_or]

theorem isPartChar_of_isNameChar {c : Char} (h : isNameChar c = true) (hc : c ≠ '/') :
    isPartChar c = true := by
  simpa [isNameChar, hc] using h

/-- Where a text with a slash is cut at its first one. -/
theorem exists_eq_append_slash {cs : List Char} (h : '/' ∈ cs) :
    ∃ ds es, cs = ds ++ '/' :: es ∧ '/' ∉ ds := by
  obtain ⟨ds, es, rfl, hds⟩ := List.eq_append_cons_of_mem h
  exact ⟨ds, es, rfl, hds⟩

/-! ### Written names -/

/-- A name without a slash is written if it starts as a part does. Its other characters are not
looked at here, as the scanner has done that. -/
theorem isWritten_of_not_mem {cs : List Char} (h : '/' ∉ cs) : isWritten cs = startsLower cs := by
  rw [isWritten, List.splitOn_eq_singleton h]

/-- A name with one slash is written if both of its parts start as parts do. -/
theorem isWritten_append {ds es : List Char} (hds : '/' ∉ ds) (hes : '/' ∉ es) :
    isWritten (ds ++ '/' :: es) = (startsLower ds && startsLower es) := by
  rw [isWritten, List.splitOn_append_cons_self_of_not_mem hds, List.splitOn_eq_singleton hes]

/-- A name with a second slash is not written. -/
theorem isWritten_append_of_mem {ds es : List Char} (hds : '/' ∉ ds) (hes : '/' ∈ es) :
    isWritten (ds ++ '/' :: es) = false := by
  obtain ⟨fs, gs, rfl, hfs⟩ := exists_eq_append_slash hes
  rw [isWritten, List.splitOn_append_cons_self_of_not_mem hds,
    List.splitOn_append_cons_self_of_not_mem hfs]
  cases h : gs.splitOn '/' with
  | nil => exact absurd h (List.splitOn_ne_nil '/' gs)
  | cons => rfl

/-- A written name is one part or a full name. -/
theorem isPart_or_isFull {cs : List Char} (h : isWritten cs = true)
    (hchars : ∀ c ∈ cs, isNameChar c = true) : IsPart cs ∨ IsFull cs := by
  have hpart : ∀ ds : List Char, (∀ c ∈ ds, c ∈ cs) → '/' ∉ ds → ∀ c ∈ ds, isPartChar c = true :=
    fun ds hsub hslash c hc ↦ isPartChar_of_isNameChar (hchars c (hsub c hc)) fun heq ↦
      hslash (heq ▸ hc)
  by_cases hslash : '/' ∈ cs
  · obtain ⟨ds, es, rfl, hds⟩ := exists_eq_append_slash hslash
    by_cases hes : '/' ∈ es
    · rw [isWritten_append_of_mem hds hes] at h
      cases h
    · rw [isWritten_append hds hes, Bool.and_eq_true] at h
      exact .inr (isFull_append ⟨h.1, hpart ds (by simp +contextual) hds⟩
        ⟨h.2, hpart es (by simp +contextual) hes⟩)
  · rw [isWritten_of_not_mem hslash] at h
    exact .inl ⟨h, hpart cs (fun _ hc ↦ hc) hslash⟩

/-- A part by itself is a written name, of the namespace that is left out. -/
theorem isWritten_of_isPart {cs : List Char} (h : IsPart cs) : isWritten cs = true := by
  rw [isWritten_of_not_mem h.slash_not_mem, h.1]

/-- A full name may be written as it is. -/
theorem isWritten_of_isFull {cs : List Char} (h : IsFull cs) : isWritten cs = true := by
  obtain ⟨space, part, rfl, hs, hp⟩ := h
  rw [isWritten_append hs.slash_not_mem hp.slash_not_mem, hs.1, hp.1]
  rfl

theorem IsPart.isNameChar {cs : List Char} (h : IsPart cs) : ∀ c ∈ cs, isNameChar c = true :=
  fun c hc ↦ isNameChar_of_isPartChar (h.2 c hc)

/-- The characters of a full name are those that the scanner takes for a name. -/
theorem IsFull.isNameChar {cs : List Char} (h : IsFull cs) : ∀ c ∈ cs, isNameChar c = true := by
  obtain ⟨space, part, rfl, hs, hp⟩ := h
  intro c hc
  rcases List.mem_append.1 hc with hc | hc
  · exact hs.isNameChar c hc
  · rcases List.mem_cons.1 hc with rfl | hc
    · rfl
    · exact hp.isNameChar c hc

/-- A full name is a written name with a slash. -/
theorem isFull_iff {cs : List Char} :
    IsFull cs ↔ isWritten cs = true ∧ '/' ∈ cs ∧ ∀ c ∈ cs, isNameChar c = true := by
  refine ⟨fun h ↦ ⟨isWritten_of_isFull h, ?_, h.isNameChar⟩, fun ⟨hwritten, hslash, hchars⟩ ↦ ?_⟩
  · obtain ⟨space, part, rfl, -, -⟩ := h
    simp
  · rcases isPart_or_isFull hwritten hchars with hpart | hfull
    · exact absurd hslash hpart.slash_not_mem
    · exact hfull

instance (cs : List Char) : Decidable (IsFull cs) :=
  decidable_of_iff (isWritten cs = true ∧ '/' ∈ cs ∧ cs.all isNameChar = true) (by
    rw [isFull_iff, List.all_eq_true])

/-! ### Full names -/

/-- What a written name stands for is a full name. -/
theorem isFull_full {cs : List Char} (h : isWritten cs = true)
    (hchars : ∀ c ∈ cs, isNameChar c = true) : IsFull (full cs) := by
  rcases isPart_or_isFull h hchars with hpart | hfull
  · rw [full, if_neg hpart.slash_not_mem]
    exact isFull_append (show IsPart ['c', 'o', 'r', 'e'] by decide) hpart
  · obtain ⟨space, part, rfl, hs, hp⟩ := hfull
    rw [full, if_pos (by simp)]
    exact isFull_append hs hp

/-- The written form of a full name is a written name that stands for it. -/
theorem full_short {name : String} (h : IsFull name.toList) :
    full (short name).toList = name.toList ∧ isWritten (short name).toList = true
      ∧ ∀ c ∈ (short name).toList, BlockName.isNameChar c = true := by
  unfold short
  split
  · next part hname =>
    rw [String.toList_ofList]
    obtain ⟨space, part', heq, hs, hp⟩ := h
    -- the namespace ends at the first slash, so what is left out is all of it
    have hpart : part = part' := by
      rw [hname] at heq
      have hsplit := congrArg (List.splitOn '/') heq
      rw [List.splitOn_append_cons_self_of_not_mem hs.slash_not_mem,
        List.splitOn_eq_singleton hp.slash_not_mem] at hsplit
      have hcore := List.splitOn_append_cons_self_of_not_mem
        (show '/' ∉ ['c', 'o', 'r', 'e'] by decide) part
      simp only [List.cons_append, List.nil_append] at hcore
      rw [hcore] at hsplit
      have hpart : ['/'].intercalate (part.splitOn '/') = part := List.intercalate_splitOn '/'
      simp_all
    subst hpart
    refine ⟨?_, isWritten_of_isPart hp, hp.isNameChar⟩
    rw [full, if_neg hp.slash_not_mem, hname]
    rfl
  · refine ⟨?_, isWritten_of_isFull h, h.isNameChar⟩
    obtain ⟨space, part, heq, -, -⟩ := h
    rw [full, if_pos (by simp [heq])]

end PostBlocks.BlockName
