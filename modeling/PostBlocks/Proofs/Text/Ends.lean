import Mathlib.Data.List.DropRight
import PostBlocks.Text.Blank

/-!
# The ends of a text

A character that ends a stretch of a text is found behind everything that does not have it
(`takeWhile_append_cons`, `suffix_of_not_mem`). And a text is some blank characters, a stretch that
neither starts nor ends with one, and some blank characters again. The stretch between is settled by
the text (`Trims.trim_eq`), and it is what trimming leaves (`trims_trim`). Blank characters have no
part in the first of these, so it is proved for any property of characters
(`rdropWhile_dropWhile_append`) and serves the hyphens of a slug as well.
-/

namespace PostBlocks.Text

/-- A part of a text that starts with a character lies behind everything without that character. -/
theorem suffix_of_not_mem {c : Char} {cs ds es : List Char} (h : c :: cs <:+ ds ++ es)
    (hc : c ∉ ds) : c :: cs <:+ es := by
  induction ds with
  | nil => exact h
  | cons d ds ih =>
    rw [List.mem_cons, not_or] at hc
    rcases List.suffix_cons_iff.1 h with h | h
    · exact absurd (List.cons.inj h).1 hc.1
    · exact ih h hc.2

/-- What starts with a character that a stretch lacks is a part of a text exactly when it is one of
the text behind that stretch. -/
theorem infix_append_iff_of_not_mem {c : Char} {ds : List Char} (h : c ∉ ds) (cs es : List Char) :
    c :: cs <:+: ds ++ es ↔ c :: cs <:+: es := by
  refine ⟨fun hinfix ↦ ?_, fun hinfix ↦ hinfix.trans (List.suffix_append ds es).isInfix⟩
  obtain ⟨part, ⟨rest, rfl⟩, hsuffix⟩ := List.infix_iff_prefix_suffix.1 hinfix
  exact (List.prefix_append _ rest).isInfix.trans (suffix_of_not_mem hsuffix h).isInfix

/-- The form in which `takeWhile` and `dropWhile` ask for a character's absence. -/
theorem forall_ne_of_not_mem {c : Char} {cs : List Char} (h : c ∉ cs) :
    ∀ d ∈ cs, decide (d ≠ c) = true :=
  fun _ hd ↦ decide_eq_true fun heq ↦ h (heq ▸ hd)

/-- Reading up to a character finds the stretch in front of its first occurrence. -/
theorem takeWhile_append_cons {c : Char} {cs : List Char} (h : c ∉ cs) (ds : List Char) :
    (cs ++ c :: ds).takeWhile (· ≠ c) = cs := by
  rw [List.takeWhile_append_of_pos (forall_ne_of_not_mem h), List.takeWhile_cons_of_neg (by simp),
    List.append_nil]

/-- The rest starts with the character itself, so a reader still has it to consume. -/
theorem dropWhile_append_cons {c : Char} {cs : List Char} (h : c ∉ cs) (ds : List Char) :
    (cs ++ c :: ds).dropWhile (· ≠ c) = c :: ds := by
  rw [List.dropWhile_append_of_pos (forall_ne_of_not_mem h), List.dropWhile_cons_of_neg (by simp)]

/-! ### Trimming -/

/-- What is left of a text without its blank ends. -/
structure Trims (text kept : List Char) : Prop where
  between : ∃ lead trail, text = lead ++ kept ++ trail ∧ ∀ c ∈ lead ++ trail, isBlank c = true
  head : ∀ c ∈ kept.head?, isBlank c = false
  last : ∀ c ∈ kept.getLast?, isBlank c = false

/-- Trimming the end is the library's `rdropWhile`, whose lemmas serve below. -/
theorem trimEnd_eq (cs : List Char) : trimEnd cs = cs.rdropWhile isBlank :=
  rfl

/-- Dropping the characters with a property from both ends of a text leaves what stands between
them, if that neither starts nor ends with such a character. -/
theorem rdropWhile_dropWhile_append {p : Char → Bool} {lead kept trail : List Char}
    (hlead : ∀ c ∈ lead, p c = true) (htrail : ∀ c ∈ trail, p c = true)
    (hhead : ∀ c ∈ kept.head?, p c = false) (hlast : ∀ c ∈ kept.getLast?, p c = false) :
    ((lead ++ (kept ++ trail)).dropWhile p).rdropWhile p = kept := by
  rw [List.dropWhile_append_of_pos hlead]
  cases kept with
  | nil => rw [List.nil_append, List.dropWhile_eq_nil_iff.2 htrail, List.rdropWhile_nil]
  | cons c cs =>
    have hback : (c :: cs).rdropWhile p = c :: cs := List.rdropWhile_eq_self_iff.2 fun hne ↦
      Bool.eq_false_iff.1 (hlast _ (List.getLast?_eq_some_getLast hne))
    have htrail' : ∀ d ∈ trail.reverse, p d = true := fun d hd ↦ htrail d (List.mem_reverse.1 hd)
    rw [List.cons_append, List.dropWhile_cons_of_neg (by simp [hhead c rfl]), ← List.cons_append,
      List.rdropWhile, List.reverse_append, List.dropWhile_append_of_pos htrail', ← List.rdropWhile,
      hback]

/-- Trimming leaves a text without its blank ends. -/
theorem trims_trim (cs : List Char) : Trims cs (trim cs) := by
  have hback : trim cs ++ (cs.dropWhile isBlank).rtakeWhile isBlank = cs.dropWhile isBlank :=
    List.rdropWhile_append_rtakeWhile
  refine ⟨⟨cs.takeWhile isBlank, (cs.dropWhile isBlank).rtakeWhile isBlank, ?_, ?_⟩, ?_, ?_⟩
  · rw [List.append_assoc, hback, List.takeWhile_append_dropWhile]
  · rw [List.forall_mem_append]
    exact ⟨fun c hc ↦ List.mem_takeWhile_imp hc, fun c hc ↦ List.mem_rtakeWhile_imp hc⟩
  · -- the front of what is kept is the front of what stands behind the blank characters
    intro c hc
    obtain ⟨ds, hds⟩ := List.head?_eq_some_iff.1 hc
    have hfront : (cs.dropWhile isBlank).head? = some c := by
      rw [← hback, hds]
      rfl
    have := List.head?_dropWhile_not isBlank cs
    rwa [hfront] at this
  · intro c hc
    have hne : (cs.dropWhile isBlank).rdropWhile isBlank ≠ [] := by
      intro hnil
      rw [trim, trimEnd_eq, hnil] at hc
      cases hc
    have hlast := List.rdropWhile_last_not isBlank _ hne
    rw [trim, trimEnd_eq, List.getLast?_eq_some_getLast hne] at hc
    obtain rfl := Option.some.inj hc
    exact Bool.eq_false_iff.2 hlast

/-- There is one way only to cut the blank ends off a text. -/
theorem Trims.trim_eq {text kept : List Char} (h : Trims text kept) : trim text = kept := by
  obtain ⟨⟨lead, trail, rfl, hblank⟩, hhead, hlast⟩ := h
  obtain ⟨hlead, htrail⟩ := List.forall_mem_append.1 hblank
  rw [trim, trimEnd_eq, List.append_assoc]
  exact rdropWhile_dropWhile_append hlead htrail hhead hlast

end PostBlocks.Text
