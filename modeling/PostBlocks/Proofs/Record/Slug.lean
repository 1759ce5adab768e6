import Mathlib.Data.List.Chain
import PostBlocks.Proofs.Record.Fields
import PostBlocks.Proofs.Text.Ends

/-!
# Canonical slugs

The words of a path are its longest runs of characters that a slug keeps (`words`). A slug is built
character by character, and what is built is at any time the words read so far with a hyphen
between any two, but perhaps for a hyphen at either end (`exists_foldl_push`). Those are trimmed, so
a slug is the words of its path in lower case, joined by hyphens (`ofChars_eq_join`). From that form
follows all else: which characters a slug has and where its hyphens stand (`isCanonical_join`), and
that it has the words it was joined from (`words_join`), so it is its own slug.
-/

namespace PostBlocks.Slug

/-! ### Words -/

/-- The words of a path: its longest runs of letters, digits and low lines, in order. -/
def words (path : List Char) : List (List Char) :=
  (path.splitOnP (!isKept ·)).filter (· ≠ [])

/-- Words in lower case, with a hyphen between any two neighbours. -/
def join (ws : List (List Char)) : List Char :=
  ['-'].intercalate (ws.map (·.map Char.toLower))

/-- Each entry is a word: it is not empty and holds kept characters only. -/
def AreWords (ws : List (List Char)) : Prop :=
  ∀ w ∈ ws, w ≠ [] ∧ ∀ c ∈ w, isKept c = true

/-- A character that a slug does not keep ends a word, so the words on its two sides are found
apart. -/
theorem words_append_cons {c : Char} (h : isKept c = false) (cs ds : List Char) :
    words (cs ++ c :: ds) = words cs ++ words ds := by
  rw [words, List.splitOnP_append_cons cs ds (by simp [h]), List.filter_append]
  rfl

theorem words_cons {c : Char} (h : isKept c = false) (cs : List Char) :
    words (c :: cs) = words cs :=
  words_append_cons h [] cs

/-- Kept characters with no other between them are one word. -/
theorem words_eq_singleton {w : List Char} (hne : w ≠ []) (h : ∀ c ∈ w, isKept c = true) :
    words w = [w] := by
  rw [words, List.splitOnP_eq_singleton (by simpa using h), List.filter_singleton]
  simp [hne]

/-- The words of a path are the characters that are kept, none lost and none moved. -/
theorem flatten_words (path : List Char) : (words path).flatten = path.filter isKept := by
  rw [words, List.flatten_filter_ne_nil]
  induction path with
  | nil => rfl
  | cons c cs ih =>
    obtain ⟨w, ws, hsplit⟩ := List.exists_cons_of_ne_nil (List.splitOnP_ne_nil (!isKept ·) cs)
    rw [hsplit] at ih
    rw [List.splitOnP_cons_eq_if_modifyHead, List.filter_cons, hsplit]
    cases hc : isKept c with
    | true => simpa using ih
    | false => simpa using ih

/-- The words of a path are words: cutting leaves out the empty runs and the characters between. -/
theorem areWords_words (path : List Char) : AreWords (words path) := by
  intro w hw
  refine ⟨by simpa using (List.mem_filter.1 hw).2, fun c hc ↦ ?_⟩
  have hmem : c ∈ path.filter isKept := flatten_words path ▸ List.mem_flatten.2 ⟨w, hw, hc⟩
  exact (List.mem_filter.1 hmem).2

/-- A path has no words if it has no character that is kept. -/
theorem words_eq_nil_iff {path : List Char} : words path = [] ↔ ∀ c ∈ path, isKept c = false := by
  constructor
  · intro h c hc
    by_contra hkept
    have hmem : c ∈ (words path).flatten :=
      flatten_words path ▸ List.mem_filter.2 ⟨hc, by simpa using hkept⟩
    simp [h] at hmem
  · intro h
    refine List.eq_nil_iff_forall_not_mem.2 fun w hw ↦ ?_
    obtain ⟨hne, -⟩ := areWords_words path w hw
    obtain ⟨c, hc⟩ := List.exists_mem_of_ne_nil w hne
    have hmem : c ∈ path.filter isKept := flatten_words path ▸ List.mem_flatten.2 ⟨w, hw, hc⟩
    simp [h c (List.mem_filter.1 hmem).1] at hmem

/-! ### Joined words -/

/-- In lower case, a character that a slug keeps is a small letter, a digit or a low line. -/
theorem toLower_cases {c : Char} (h : isKept c = true) :
    c.toLower.isLower = true ∨ c.toLower.isDigit = true ∨ c.toLower = '_' := by
  unfold Char.toLower
  split
  · next hupper =>
    have hge : 65 ≤ c.val.toNat := UInt32.le_iff_toNat_le.1 hupper.1
    have hle : c.val.toNat ≤ 90 := UInt32.le_iff_toNat_le.1 hupper.2
    have hval : (c.val + ('a'.val - 'A'.val)).toNat = c.val.toNat + 32 := by
      rw [UInt32.toNat_add]
      exact Nat.mod_eq_of_lt (show c.val.toNat + 32 < 2 ^ 32 by omega)
    have hlow : 'a'.val ≤ c.val + ('a'.val - 'A'.val) :=
      UInt32.le_iff_toNat_le.2 (hval ▸ show 97 ≤ c.val.toNat + 32 by omega)
    have hhigh : c.val + ('a'.val - 'A'.val) ≤ 'z'.val :=
      UInt32.le_iff_toNat_le.2 (hval ▸ show c.val.toNat + 32 ≤ 122 by omega)
    exact .inl (Bool.and_eq_true_iff.2 ⟨decide_eq_true hlow, decide_eq_true hhigh⟩)
  · next hupper =>
    have hnot : c.isUpper = false := decide_eq_false hupper
    have hforms : (c.isUpper || c.isLower || c.isDigit || c == '_') = true := h
    simpa [hnot, or_assoc] using hforms

/-- A character that a slug keeps is kept again in lower case, so a slug has words of its own. -/
theorem isKept_toLower {c : Char} (h : isKept c = true) : isKept c.toLower = true := by
  show (c.toLower.isUpper || c.toLower.isLower || c.toLower.isDigit || c.toLower == '_') = true
  rcases toLower_cases h with hlower | hdigit | heq
  · simp [hlower]
  · simp [hdigit]
  · simp [heq]

theorem toLower_toLower (c : Char) : c.toLower.toLower = c.toLower := by
  unfold Char.toLower
  grind

/-- The hyphens of a slug are those that were put between words, never a character of one. -/
theorem toLower_ne_hyphen {c : Char} (h : isKept c = true) : c.toLower ≠ '-' := by
  intro heq
  have hkept := isKept_toLower h
  rw [heq] at hkept
  exact absurd hkept (by decide)

theorem join_singleton (w : List Char) : join [w] = w.map Char.toLower :=
  List.intercalate_singleton

/-- A word in front of others comes with the hyphen behind it. -/
theorem join_cons {ws : List (List Char)} (h : ws ≠ []) (w : List Char) :
    join (w :: ws) = w.map Char.toLower ++ '-' :: join ws := by
  rw [join, List.map_cons, List.intercalate_cons_of_ne_nil (by simpa using h), List.append_assoc]
  rfl

theorem join_ne_nil {ws : List (List Char)} (h : AreWords ws) (hne : ws ≠ []) : join ws ≠ [] := by
  obtain ⟨w, ws, rfl⟩ := List.exists_cons_of_ne_nil hne
  have hw : w ≠ [] := (h w List.mem_cons_self).1
  by_cases hnil : ws = []
  · subst hnil
    simpa [join_singleton] using hw
  · simp [join_cons hnil]

/-- The form of a slug: small letters, digits, low lines and hyphens, with no hyphen at an end and
no two of them in a row. -/
structure IsCanonical (slug : List Char) : Prop where
  chars : ∀ c ∈ slug, c.isLower = true ∨ c.isDigit = true ∨ c = '_' ∨ c = '-'
  head : slug.head? ≠ some '-'
  last : slug.getLast? ≠ some '-'
  single : ¬['-', '-'] <:+: slug

theorem hyphen_not_mem_map_toLower {w : List Char} (h : ∀ c ∈ w, isKept c = true) :
    '-' ∉ w.map Char.toLower := by
  intro hmem
  obtain ⟨c, hc, heq⟩ := List.mem_map.1 hmem
  exact toLower_ne_hyphen (h c hc) heq

/-- One word by itself has the form of a slug, and so has none at all. -/
theorem isCanonical_map_toLower {w : List Char} (h : ∀ c ∈ w, isKept c = true) :
    IsCanonical (w.map Char.toLower) := by
  have hne := hyphen_not_mem_map_toLower h
  refine ⟨?_, fun heq ↦ hne (List.mem_of_head? heq), fun heq ↦ hne (List.mem_of_getLast? heq),
    fun hpair ↦ hne (List.IsInfix.subset hpair List.mem_cons_self)⟩
  intro c hmem
  obtain ⟨d, hd, rfl⟩ := List.mem_map.1 hmem
  rcases toLower_cases (h d hd) with hlower | hdigit | heq
  · exact .inl hlower
  · exact .inr (.inl hdigit)
  · exact .inr (.inr (.inl heq))

/-- One more word in front of a slug. -/
theorem IsCanonical.cons {w slug : List Char} (h : IsCanonical slug) (hslug : slug ≠ [])
    (hne : w ≠ []) (hw : ∀ c ∈ w, isKept c = true) :
    IsCanonical (w.map Char.toLower ++ '-' :: slug) := by
  have hword := isCanonical_map_toLower hw
  refine ⟨?_, ?_, ?_, ?_⟩
  · intro c hc
    rcases List.mem_append.1 hc with hc | hc
    · exact hword.chars c hc
    · rcases List.mem_cons.1 hc with rfl | hc
      · exact .inr (.inr (.inr rfl))
      · exact h.chars c hc
  · rw [List.head?_append_of_ne_nil _ (by simpa using hne)]
    exact hword.head
  · rw [List.getLast?_append_of_ne_nil _ (List.cons_ne_nil _ _),
      List.getLast?_cons_of_ne_nil hslug]
    exact h.last
  · rw [Text.infix_append_iff_of_not_mem (hyphen_not_mem_map_toLower hw), List.infix_cons_iff,
      List.cons_prefix_cons]
    rintro (⟨-, rest, rfl⟩ | hinfix)
    · exact h.head rfl
    · exact h.single hinfix

theorem isCanonical_join {ws : List (List Char)} (h : AreWords ws) : IsCanonical (join ws) := by
  induction ws with
  | nil => exact isCanonical_map_toLower (w := []) (by simp)
  | cons w ws ih =>
    obtain ⟨⟨hne, hw⟩, hws⟩ := List.forall_mem_cons.1 h
    by_cases hnil : ws = []
    · subst hnil
      rw [join_singleton]
      exact isCanonical_map_toLower hw
    · rw [join_cons hnil]
      exact (ih hws).cons (join_ne_nil hws hnil) hne hw

/-- Joined words are found again, in lower case. -/
theorem words_join {ws : List (List Char)} (h : AreWords ws) :
    words (join ws) = ws.map (·.map Char.toLower) := by
  have hlower : ∀ w : List Char, (∀ c ∈ w, isKept c = true) →
      ∀ c ∈ w.map Char.toLower, isKept c = true :=
    fun w hw ↦ List.forall_mem_map.2 fun c hc ↦ isKept_toLower (hw c hc)
  induction ws with
  | nil => rfl
  | cons w ws ih =>
    obtain ⟨⟨hne, hw⟩, hws⟩ := List.forall_mem_cons.1 h
    have hword : words (w.map Char.toLower) = [w.map Char.toLower] :=
      words_eq_singleton (by simpa using hne) (hlower w hw)
    by_cases hnil : ws = []
    · subst hnil
      rw [join_singleton, hword]
      rfl
    · rw [join_cons hnil, words_append_cons (by decide), hword, ih hws]
      rfl

theorem join_map_toLower (ws : List (List Char)) :
    join (ws.map (·.map Char.toLower)) = join ws := by
  simp only [join, List.map_map, Function.comp_def, toLower_toLower]

/-! ### Building -/

/-- What the rest of a path adds to a slug that ends with a hyphen, or to one that does not. -/
def added (hyphen : Bool) : List Char → List Char
  | [] => []
  | c :: cs =>
    if isKept c then c.toLower :: added false cs
    else if hyphen then added true cs
    else '-' :: added true cs

/-- Of the slug so far only its last character counts: whether the next hyphen would be a second
one. -/
theorem foldl_push (slug path : List Char) :
    path.foldl push slug = slug ++ added (slug.getLast? = some '-') path := by
  induction path generalizing slug with
  | nil => simp [added]
  | cons c cs ih =>
    rw [List.foldl_cons, ih, added, push]
    cases hc : isKept c with
    | true => simp [toLower_ne_hyphen hc]
    | false =>
      by_cases hlast : slug.getLast? = some '-'
      · simp [hlast]
      · simp [hlast]

/-- Words that are joined, perhaps with a hyphen behind the last of them. -/
def Trails (ws : List (List Char)) (slug : List Char) : Prop :=
  slug = join ws ∨ ws ≠ [] ∧ slug = join ws ++ ['-']

/-- Words that follow a hyphen are joined to the one in front of it. -/
theorem Trails.cons {ws : List (List Char)} {slug : List Char} (h : Trails ws slug)
    (w : List Char) : Trails (w :: ws) (w.map Char.toLower ++ '-' :: slug) := by
  by_cases hws : ws = []
  · subst hws
    obtain rfl : slug = [] := h.elim id fun h ↦ absurd rfl h.1
    exact .inr ⟨List.cons_ne_nil w [], by rw [join]; simp⟩
  · rcases h with rfl | ⟨-, rfl⟩
    · exact .inl (join_cons hws w).symm
    · exact .inr ⟨List.cons_ne_nil w ws, by rw [join_cons hws]; simp⟩

/-- What a path adds behind a hyphen are its words; behind the first characters of a word, it adds
the rest of that and the words after it. -/
theorem trails_added (path : List Char) :
    Trails (words path) (added true path)
      ∧ ∀ w, w ≠ [] → (∀ c ∈ w, isKept c = true) →
        Trails (words (w ++ path)) (w.map Char.toLower ++ added false path) := by
  induction path with
  | nil =>
    refine ⟨.inl rfl, fun w hne hw ↦ .inl ?_⟩
    rw [List.append_nil, words_eq_singleton hne hw, join]
    simp [added]
  | cons c cs ih =>
    obtain ⟨hopen, hword⟩ := ih
    cases hc : isKept c with
    | true =>
      have hadded : ∀ hyphen, added hyphen (c :: cs) = c.toLower :: added false cs :=
        fun hyphen ↦ by rw [added, if_pos hc]
      refine ⟨?_, fun w hne hw ↦ ?_⟩
      · rw [hadded]
        exact hword [c] (List.cons_ne_nil c []) (by simpa using hc)
      · -- the word in front grows by the character
        have hlonger := hword (w ++ [c]) (by simp)
          (by simpa [or_imp, forall_and, hc] using hw)
        rw [hadded]
        simpa using hlonger
    | false =>
      refine ⟨?_, fun w hne hw ↦ ?_⟩
      · rw [words_cons hc, added, if_neg (by simp [hc]), if_pos rfl]
        exact hopen
      · rw [words_append_cons hc, words_eq_singleton hne hw, added, if_neg (by simp [hc]),
          if_neg Bool.false_ne_true]
        exact hopen.cons w

/-- What a path builds is its words, joined, with at most a hyphen in front and one behind. -/
theorem exists_foldl_push (path : List Char) : ∃ lead, (lead = [] ∨ lead = ['-'])
    ∧ ∃ slug, path.foldl push [] = lead ++ slug ∧ Trails (words path) slug := by
  rw [foldl_push, List.nil_append]
  cases path with
  | nil => exact ⟨[], .inl rfl, [], rfl, .inl rfl⟩
  | cons c cs =>
    obtain ⟨hopen, hword⟩ := trails_added cs
    cases hc : isKept c with
    | true =>
      refine ⟨[], .inl rfl, _, ?_, hword [c] (List.cons_ne_nil c []) (by simpa using hc)⟩
      simp [added, hc]
    | false =>
      refine ⟨['-'], .inr rfl, added true cs, ?_, by rwa [words_cons hc]⟩
      simp [added, hc]

/-! ### Slugs -/

/-- The slug of a path is its words in lower case, with a hyphen between any two neighbours. -/
theorem ofChars_eq_join (path : List Char) : ofChars path = join (words path) := by
  have hcanonical := isCanonical_join (areWords_words path)
  obtain ⟨lead, hlead, slug, hfold, htrails⟩ := exists_foldl_push path
  have hlead' : ∀ c ∈ lead, (c == '-') = true := by rcases hlead with rfl | rfl <;> simp
  obtain ⟨trail, htrail, rfl⟩ : ∃ trail, (∀ c ∈ trail, (c == '-') = true)
      ∧ slug = join (words path) ++ trail := by
    rcases htrails with rfl | ⟨-, rfl⟩
    · exact ⟨[], by simp⟩
    · exact ⟨['-'], by simp⟩
  -- the words themselves have no hyphen at an end, so trimming stops at them
  have hhead : ∀ c ∈ (join (words path)).head?, (c == '-') = false := fun c hc ↦
    beq_false_of_ne fun heq ↦ hcanonical.head (heq ▸ hc)
  have hlast : ∀ c ∈ (join (words path)).getLast?, (c == '-') = false := fun c hc ↦
    beq_false_of_ne fun heq ↦ hcanonical.last (heq ▸ hc)
  rw [ofChars, hfold]
  exact Text.rdropWhile_dropWhile_append hlead' htrail hhead hlast

theorem toList_ofPath (path : String) : (ofPath path).toList = join (words path.toList) := by
  rw [ofPath, String.toList_ofList, ofChars_eq_join]

/-- A slug is its own slug: its words are those it was joined from, and they are in lower case. -/
theorem ofPath_ofPath (path : String) : ofPath (ofPath path) = ofPath path := by
  rw [← String.toList_inj, toList_ofPath, toList_ofPath, words_join (areWords_words _),
    join_map_toLower]

/-- A path without a character that is kept has the empty slug. -/
theorem ofPath_eq_empty_iff {path : String} :
    ofPath path = "" ↔ ∀ c ∈ path.toList, isKept c = false := by
  rw [← words_eq_nil_iff, ← String.toList_inj, toList_ofPath]
  refine ⟨fun h ↦ ?_, fun h ↦ by rw [h]; rfl⟩
  by_contra hne
  exact join_ne_nil (areWords_words _) hne h

/-! ### Slugs of pages -/

/-- The record of a page has a slug if the page's path is a string with a character that is kept;
then it is the slug of that path. -/
theorem slug_eq_some_iff {defaults : RecordDefaults} {table : TagTable} {page : Json}
    {record : PageRecord} (h : PageRecord.ofJson defaults table page = .ok record)
    {slug : String} : record.slug = some slug ↔ ∃ path, page.get? "path" = some (.string path)
      ∧ (∃ c ∈ path.toList, isKept c = true) ∧ slug = ofPath path := by
  rw [(PageRecord.isOf_of_ofJson h).slug, Option.filter_eq_some_iff, Option.map_eq_some_iff]
  constructor
  · rintro ⟨⟨path, hpath, rfl⟩, hne⟩
    refine ⟨path, Json.bind_string?_eq_some_iff.1 hpath, ?_, rfl⟩
    by_contra hnone
    exact absurd (ofPath_eq_empty_iff.2 (by simpa using hnone)) (by simpa using hne)
  · rintro ⟨path, hpath, ⟨c, hc, hkept⟩, rfl⟩
    refine ⟨⟨path, Json.bind_string?_eq_some_iff.2 hpath, rfl⟩, ?_⟩
    simp only [ne_eq, decide_not, Bool.not_eq_true', decide_eq_false_iff_not, ofPath_eq_empty_iff]
    exact fun hnone ↦ absurd (hnone c hc) (by simp [hkept])

/-- The slug of a path is its longest runs of letters, digits and low lines, in lower case and in
order, with one hyphen between any two neighbours. So it has the form of a slug and is its own slug;
and the record of a page has none exactly if the page has no path, or one that is not a string, or
one without such a character. -/
theorem ofPath_canonical (path : String) :
    (ofPath path).toList = ['-'].intercalate ((words path.toList).map (·.map Char.toLower))
      ∧ IsCanonical (ofPath path).toList
      ∧ ofPath (ofPath path) = ofPath path
      ∧ ∀ defaults table page record, PageRecord.ofJson defaults table page = .ok record →
        (record.slug = none ↔ ∀ path, page.get? "path" = some (.string path) →
          ∀ c ∈ path.toList, isKept c = false)
        ∧ (page.get? "path" = some (.string path) → ∀ slug ∈ record.slug, slug = ofPath path) := by
  have hcanonical : IsCanonical (ofPath path).toList := by
    rw [toList_ofPath]
    exact isCanonical_join (areWords_words _)
  refine ⟨toList_ofPath path, hcanonical, ofPath_ofPath path, ?_⟩
  intro defaults table page record h
  constructor
  · rw [Option.eq_none_iff_forall_ne_some]
    constructor
    · intro hnone path hpath c hc
      by_contra hkept
      exact hnone _ ((slug_eq_some_iff h).2 ⟨path, hpath, ⟨c, hc, by simpa using hkept⟩, rfl⟩)
    · rintro hnone slug hslug
      obtain ⟨path, hpath, ⟨c, hc, hkept⟩, -⟩ := (slug_eq_some_iff h).1 hslug
      exact absurd (hnone path hpath c hc) (by simp [hkept])
  · intro hpath slug hslug
    obtain ⟨path', hpath', -, rfl⟩ := (slug_eq_some_iff h).1 hslug
    obtain rfl : path = path' := by simpa [hpath] using hpath'
    rfl

/-- Hyphens of a path count as little as any other characters between its words. -/
theorem ofPath_canonical_hyphens : ∃ record,
    PageRecord.ofJson default .standard (.object [("path", .string "/--Tour -- D\u00e4tes_2024!")])
      = .ok record ∧ record.slug = some "tour-d-tes_2024" := by
  obtain ⟨hjoin, -, -, hpages⟩ := ofPath_canonical "/--Tour -- D\u00e4tes_2024!"
  have hslug : ofPath "/--Tour -- D\u00e4tes_2024!" = "tour-d-tes_2024" := by
    rw [← String.toList_inj, hjoin]
    decide
  obtain ⟨record, hpage⟩ : ∃ record, PageRecord.ofJson default .standard
      (.object [("path", .string "/--Tour -- D\u00e4tes_2024!")]) = .ok record := ⟨_, rfl⟩
  obtain ⟨hnone, hsome⟩ := hpages _ _ _ _ hpage
  have hne : record.slug ≠ none := fun heq ↦
    absurd (hnone.1 heq _ rfl 'T' (by decide)) (by decide)
  obtain ⟨slug, heq⟩ := Option.ne_none_iff_exists'.1 hne
  exact ⟨record, hpage, by rw [heq, hsome rfl slug heq, hslug]⟩

end PostBlocks.Slug
