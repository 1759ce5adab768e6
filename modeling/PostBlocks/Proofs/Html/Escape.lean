import Mathlib.Data.Bool.AllAny
import PostBlocks.Html.Escape
import PostBlocks.Proofs.Text.Ends

/-!
# Escaped text is read back

A character of text is written as itself or as one of five entities (`escapeChar_cases`), which are
an ampersand and characters that are no ampersand. So every ampersand of escaped text starts an
entity (`exists_entity_of_suffix`), and reading takes the characters one by one, whatever follows
them (`unescapeChars_escapeChars_append`): texts that are escaped apart are read as one text, also
where the cut is made inside of something that looks like an entity (`unescape_escape`).
-/

namespace PostBlocks.Html

/-- The entities that are written and read. -/
def entities : List String :=
  ["&amp;", "&lt;", "&gt;", "&quot;", "&#039;"]

/-- A character stands for itself, or is written as an entity. -/
theorem escapeChar_cases (c : Char) :
    (escapeChar c = [c] ∧ c ∉ ['&', '<', '>', '"', '\''])
      ∨ ∃ e ∈ entities, ∃ name, e.toList = '&' :: name ∧ escapeChar c = '&' :: name := by
  unfold escapeChar
  split
  · exact .inr ⟨"&amp;", by decide, _, rfl, rfl⟩
  · exact .inr ⟨"&lt;", by decide, _, rfl, rfl⟩
  · exact .inr ⟨"&gt;", by decide, _, rfl, rfl⟩
  · exact .inr ⟨"&quot;", by decide, _, rfl, rfl⟩
  · exact .inr ⟨"&#039;", by decide, _, rfl, rfl⟩
  · next hamp hlt hgt hquote hapostrophe =>
    exact .inl ⟨rfl, by simpa using ⟨hamp, hlt, hgt, hquote, hapostrophe⟩⟩

/-- What an entity holds behind its ampersand. -/
theorem not_mem_of_mem_entities {e : String} (he : e ∈ entities) {name : List Char}
    (hname : e.toList = '&' :: name) : ∀ c ∈ name, c ∉ ['&', '<', '>', '"', '\'', '\n'] := by
  have hall : ∀ e ∈ entities, ∀ c ∈ e.toList.tail, c ∉ ['&', '<', '>', '"', '\'', '\n'] := by
    simp [entities]
  have := hall e he
  rwa [hname] at this

/-- Escaped text has no angle bracket and no quote. -/
theorem not_mem_escapeChars (cs : List Char) : ∀ c ∈ escapeChars cs, c ∉ ['<', '>', '"', '\''] := by
  intro c hc
  obtain ⟨d, -, hd⟩ := List.mem_flatMap.1 hc
  rcases escapeChar_cases d with ⟨hself, hplain⟩ | ⟨e, he, name, hname, hentity⟩
  · rw [hself, List.mem_singleton] at hd
    subst hd
    simp_all
  · rw [hentity] at hd
    rcases List.mem_cons.1 hd with rfl | hd
    · decide
    · have := not_mem_of_mem_entities he hname c hd
      simp_all

theorem lt_not_mem_escapeChar (c : Char) : '<' ∉ escapeChar c := fun hmem ↦
  not_mem_escapeChars [c] '<' (by simpa [escapeChars] using hmem) (by decide)

/-- A character that is no line feed is not written with one. -/
theorem feed_not_mem_escapeChar {c : Char} (hc : c ≠ '\n') : '\n' ∉ escapeChar c := by
  rcases escapeChar_cases c with ⟨hself, -⟩ | ⟨e, he, name, hname, hentity⟩
  · rw [hself, List.mem_singleton]
    exact Ne.symm hc
  · rw [hentity, List.mem_cons, not_or]
    exact ⟨by decide, fun hmem ↦ not_mem_of_mem_entities he hname _ hmem (by decide)⟩

/-- Every ampersand of escaped text starts an entity. -/
theorem exists_entity_of_suffix {ts cs : List Char} (h : '&' :: cs <:+ escapeChars ts) :
    ∃ e ∈ entities, e.toList <+: '&' :: cs := by
  induction ts with
  | nil => cases List.suffix_nil.1 h
  | cons t ts ih =>
    rw [escapeChars_cons] at h
    rcases escapeChar_cases t with ⟨hself, hplain⟩ | ⟨e, he, name, hname, hentity⟩
    · rw [hself] at h
      refine ih (Text.suffix_of_not_mem h fun hmem ↦ hplain ?_)
      exact List.mem_singleton.1 hmem ▸ List.mem_cons_self
    · rw [hentity, List.cons_append] at h
      rcases List.suffix_cons_iff.1 h with h | h
      · -- the ampersand is the one that the character is written with
        refine ⟨e, he, ?_⟩
        rw [h, hname, ← List.cons_append]
        exact List.prefix_append _ _
      · refine ih (Text.suffix_of_not_mem h fun hmem ↦ ?_)
        exact not_mem_of_mem_entities he hname '&' hmem (by decide)

/-- Text without line feeds has no breaks. -/
theorem breakChars_eq_self {cs : List Char} (h : '\n' ∉ cs) : breakChars cs = cs := by
  induction cs with
  | nil => rfl
  | cons c cs ih =>
    rw [List.mem_cons, not_or] at h
    have hc : breakChar c = [c] := if_neg (Ne.symm h.1)
    rw [breakChars, List.flatMap_cons, hc]
    exact congrArg (c :: ·) (ih h.2)

/-! ### Reading entities -/

theorem unescapeChars_cons {c : Char} (hc : c ≠ '&') (cs : List Char) :
    unescapeChars (c :: cs) = c :: unescapeChars cs := by
  rw [unescapeChars.eq_def]
  split <;> simp_all

/-- A written character is read as the character, whatever follows. -/
theorem unescapeChars_escapeChar_append (c : Char) (ds : List Char) :
    unescapeChars (escapeChar c ++ ds) = c :: unescapeChars ds := by
  unfold escapeChar
  split
  case h_6 => rw [List.singleton_append, unescapeChars_cons (by assumption)]
  all_goals rfl

/-- Escaped text is read as the text, whatever follows. -/
theorem unescapeChars_escapeChars_append (cs ds : List Char) :
    unescapeChars (escapeChars cs ++ ds) = cs ++ unescapeChars ds := by
  induction cs with
  | nil => rfl
  | cons c cs ih =>
    rw [escapeChars_cons, List.append_assoc, unescapeChars_escapeChar_append, ih, List.cons_append]

theorem unescapeChars_escapeChars (cs : List Char) : unescapeChars (escapeChars cs) = cs := by
  have h := unescapeChars_escapeChars_append cs []
  rwa [List.append_nil, show unescapeChars [] = [] from rfl, List.append_nil] at h

/-- Escaped text is read back, and so are texts that were escaped one after another; it has no
character that means something in markup, but for ampersands that start one of the entities. -/
theorem unescape_escape (t u : String) :
    unescape (escape t) = t
      ∧ (∀ c ∈ (escape t).toList, c ∉ ['<', '>', '"', '\''])
      ∧ (∀ cs, '&' :: cs <:+ (escape t).toList → ∃ e ∈ entities, e.toList <+: '&' :: cs)
      ∧ unescape (escape t ++ escape u) = t ++ u := by
  rw [toList_escape]
  refine ⟨?_, not_mem_escapeChars t.toList, fun cs ↦ exists_entity_of_suffix, ?_⟩
  · rw [unescape, toList_escape, unescapeChars_escapeChars, String.ofList_toList]
  · rw [unescape, String.toList_append, toList_escape, toList_escape,
      unescapeChars_escapeChars_append, unescapeChars_escapeChars, ← String.toList_append,
      String.ofList_toList]

/-- The two halves of what looks like an entity. -/
theorem unescape_escape_halves :
    unescape (escape "&am") = "&am" ∧ '"' ∉ (escape "p;\"<").toList
      ∧ (∃ e ∈ entities, e.toList <+: "&amp;am".toList)
      ∧ unescape (escape "&am" ++ escape "p;\"<") = "&amp;\"<" := by
  refine ⟨(unescape_escape "&am" "").1, fun hmem ↦ ?_, ?_, (unescape_escape "&am" "p;\"<").2.2.2⟩
  · exact (unescape_escape "p;\"<" "").2.1 _ hmem (by decide)
  · exact (unescape_escape "&am" "").2.2.1 "amp;am".toList (by decide)

end PostBlocks.Html
