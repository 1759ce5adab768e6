import Mathlib.Data.Bool.AllAny
import PostBlocks.Block.Attributes
import PostBlocks.Proofs.Json.Read

/-!
# Attributes in a comment read back

Shielding a compact JSON text changes only how the characters of its strings are written: the
shielded text is again a compact text (`encodeChars_eq_compactWith`), in which each character can be
read. So attributes read back from a comment (`parse?_encodeChars`), and what can stand in their
text is known from the layout: no character that would end a comment (`forall_mem_encodeChars`).

Shielding runs over a text that has been printed and knows nothing of JSON. The proofs follow the
printed layout instead: outside of strings it meets characters that it leaves alone (`IsInert`), and
inside it meets the escapes of single characters (`shield_stringChar`). Hyphens are the exception.
A pair of them is escaped and one alone is not, so the shielded form of a string is not made
character by character (`shieldedChars`).

The integers of the layout bring hyphens of their own, but a sign stands in front of a digit
(`shield_integerChars`). Attributes with doubles are left out (`IsRepresentable`), as a double that
has been written may be read as another one.
-/

namespace PostBlocks.Attributes

open Json (Writes compactWith itemsWith fieldsWith quotedWith stringChar)

/-- Attributes that a comment can hold: no key repeats, all numbers are integers of a 64-bit word,
and they nest no deeper than a text may. -/
structure IsRepresentable (attrs : Json.Fields) : Prop where
  wellFormed : (Json.object attrs).WellFormed
  words : (Json.object attrs).HasWordNumbers
  shallow : (Json.object attrs).depth ≤ Json.maxDepth

/-- Attributes that nest nothing and repeat no key can be held. -/
theorem isRepresentable_of_flat {attrs : Json.Fields} (hkeys : (attrs.map Prod.fst).Nodup)
    (h : ∀ f ∈ attrs, f.2.HasWordNumbers ∧ f.2.depth = 0) : IsRepresentable attrs := by
  have hwf : ∀ f ∈ attrs, f.2.WellFormed := by
    intro f hf
    have hdepth := (h f hf).2
    cases hv : f.2 with
    | null | bool _ | number _ | string _ => trivial
    | array _ | object _ => simp [hv, Json.depth] at hdepth
  have hdepth : Json.fieldsDepth attrs ≤ 0 :=
    Json.fieldsDepth_le_iff.2 fun f hf ↦ Nat.le_of_eq (h f hf).2
  refine ⟨⟨hkeys, Json.wellFormedFields_iff.2 hwf⟩,
    Json.fieldsHaveWordNumbers_iff.2 fun f hf ↦ (h f hf).1, ?_⟩
  rw [Json.depth, Nat.le_zero.1 hdepth]
  decide

theorem isRepresentable_nil : IsRepresentable [] :=
  isRepresentable_of_flat List.nodup_nil fun _ hf ↦ nomatch hf

/-! ### Shielded strings -/

/-- The shielded form of one character of a string. -/
def shieldedChar (c : Char) : List Char :=
  if c = '"' then ['\\', 'u', '0', '0', '2', '2']
  else if c = '<' then ['\\', 'u', '0', '0', '3', 'c']
  else if c = '>' then ['\\', 'u', '0', '0', '3', 'e']
  else if c = '&' then ['\\', 'u', '0', '0', '2', '6']
  else stringChar c

/-- The shielded form of the characters of a string: a pair of hyphens is escaped, one alone
stays. -/
def shieldedChars : List Char → List Char
  | '-' :: '-' :: s =>
    ['\\', 'u', '0', '0', '2', 'd'] ++ ['\\', 'u', '0', '0', '2', 'd'] ++ shieldedChars s
  | c :: s => shieldedChar c ++ shieldedChars s
  | [] => []

theorem writes_shieldedChar (c : Char) : Writes (shieldedChar c) [c] := by
  unfold shieldedChar
  iterate 4
    split
    · next h =>
      subst h
      exact .unicode rfl (by decide)
  exact Json.writes_stringChar c

/-- Shielded characters are read as what they were. -/
theorem writes_shieldedChars (s : List Char) : Writes (shieldedChars s) s := by
  fun_induction shieldedChars s with
  | case1 s ih =>
    have hhyphen : Writes ['\\', 'u', '0', '0', '2', 'd'] ['-'] := .unicode rfl (by decide)
    exact (hhyphen.append hhyphen).append ih
  | case2 c s _ ih => exact (writes_shieldedChar c).append ih
  | case3 => exact .nil

/-- Nothing in a shielded string ends it or looks like markup. -/
theorem forall_mem_shieldedChars (s : List Char) :
    ∀ c ∈ shieldedChars s, c ∉ ['"', '<', '>', '&'] := by
  have halnum : ∀ c : Char, c.isAlphanum = true → c ∉ ['"', '<', '>', '&'] := by
    intro c h hc
    simp only [List.mem_cons, List.not_mem_nil, or_false] at hc
    rcases hc with rfl | rfl | rfl | rfl <;> exact absurd h (by decide)
  have hchar : ∀ c d, c ∈ shieldedChar d → c ∉ ['"', '<', '>', '&'] := by
    intro c d hc
    unfold shieldedChar at hc
    iterate 4
      split at hc
      · exact (List.all_iff_forall_prop (p := (· ∉ ['"', '<', '>', '&']))).1 (by decide) c hc
    next h₁ h₂ h₃ h₄ =>
      rcases Json.mem_stringChar hc with rfl | rfl | hc
      · simp [h₁, h₂, h₃, h₄]
      · decide
      · exact halnum c hc
  intro c hc
  fun_induction shieldedChars s with
  | case1 s ih =>
    have hhyphens : ∀ d ∈ ['\\', 'u', '0', '0', '2', 'd'] ++ ['\\', 'u', '0', '0', '2', 'd'],
        d ∉ ['"', '<', '>', '&'] := List.all_iff_forall_prop.1 (by decide)
    rcases List.mem_append.1 hc with hc | hc
    · exact hhyphens c hc
    · exact ih hc
  | case2 d s _ ih =>
    rcases List.mem_append.1 hc with hc | hc
    · exact hchar c d hc
    · exact ih hc
  | case3 => cases hc

/-! ### Shielding a text -/

/-- A character that shielding leaves alone, whatever stands around it. -/
def IsInert (c : Char) : Prop :=
  c ∉ ['\\', '-', '<', '>', '&']

instance (c : Char) : Decidable (IsInert c) :=
  inferInstanceAs (Decidable (_ ∉ _))

/-- Away from the characters that it looks for, shielding goes character by character. -/
theorem shield_cons {c : Char} (h : IsInert c) (cs : List Char) :
    shield (c :: cs) = c :: shield cs := by
  simp only [IsInert, List.mem_cons, List.not_mem_nil, or_false, not_or] at h
  obtain ⟨h₁, h₂, h₃, h₄, h₅⟩ := h
  rw [shield.eq_def]
  split <;> simp_all

/-- So it does over a stretch without such characters, whatever follows. -/
theorem shield_append (ds : List Char) (h : ∀ c ∈ ds, IsInert c) (cs : List Char) :
    shield (ds ++ cs) = ds ++ shield cs := by
  induction ds with
  | nil => rfl
  | cons d ds ih =>
    rw [List.cons_append, shield_cons (h d List.mem_cons_self),
      ih fun c hc ↦ h c (List.mem_cons_of_mem _ hc), List.cons_append]

/-- The same with a condition that is decided, for the fixed parts of the layout. -/
theorem shield_word (ds : List Char) (h : ds.all (IsInert ·) = true) (cs : List Char) :
    shield (ds ++ cs) = ds ++ shield cs :=
  shield_append ds (List.all_iff_forall_prop.1 h) cs

/-- A single hyphen stays. -/
theorem shield_hyphen {cs : List Char} (h : cs.head? ≠ some '-') :
    shield ('-' :: cs) = '-' :: shield cs := by
  rw [shield.eq_def]
  split
  case h_7 heq =>
    obtain ⟨rfl, rfl⟩ := List.cons.inj heq
    rfl
  all_goals simp_all

theorem isInert_of_isDigit {c : Char} (h : c.isDigit = true) : IsInert c := by
  intro hc
  simp only [List.mem_cons, List.not_mem_nil, or_false] at hc
  rcases hc with rfl | rfl | rfl | rfl | rfl <;> exact absurd h (by decide)

/-- The digits of an escape are left alone, so an escape is passed over whole. -/
theorem isInert_hexDigit {n : Nat} (h : n < 16) : IsInert (Json.hexDigit n) := by
  have hall : ∀ m < 16, IsInert (Json.hexDigit m) := by decide
  exact hall n h

theorem shieldedChar_of_ne {c : Char} (h : c ≠ '"' ∧ c ≠ '<' ∧ c ≠ '>' ∧ c ≠ '&') :
    shieldedChar c = stringChar c := by
  rw [shieldedChar, if_neg h.1, if_neg h.2.1, if_neg h.2.2.1, if_neg h.2.2.2]

/-- The escape of a character is shielded to its shielded form; only a hyphen needs to know what
follows. -/
theorem shield_stringChar {c : Char} {cs : List Char} (h : c = '-' → cs.head? ≠ some '-') :
    shield (stringChar c ++ cs) = shieldedChar c ++ shield cs := by
  by_cases hspecial : c ∈ ['"', '\\', '\x08', '\t', '\n', '\x0c', '\r', '<', '>', '&']
  · simp only [List.mem_cons, List.not_mem_nil, or_false] at hspecial
    rcases hspecial with rfl | rfl | rfl | rfl | rfl | rfl | rfl | rfl | rfl | rfl <;> rfl
  simp only [List.mem_cons, List.not_mem_nil, or_false, not_or] at hspecial
  obtain ⟨h₁, h₂, h₃, h₄, h₅, h₆, h₇, h₈, h₉, h₁₀⟩ := hspecial
  rw [shieldedChar_of_ne ⟨h₁, h₈, h₉, h₁₀⟩, stringChar, if_neg h₁, if_neg h₂, if_neg h₃, if_neg h₄,
    if_neg h₅, if_neg h₆, if_neg h₇]
  split
  · -- a control character is escaped with its number
    have hhex : ∀ d ∈ ['0', '0', Json.hexDigit (c.toNat / 16), Json.hexDigit (c.toNat % 16)],
        IsInert d := by
      simp only [List.forall_mem_cons, List.not_mem_nil, false_implies, implies_true, and_true]
      exact ⟨by decide, by decide, isInert_hexDigit (by omega), isInert_hexDigit (by omega)⟩
    exact congrArg (['\\', 'u'] ++ ·) (shield_append _ hhex cs)
  · by_cases hhyphen : c = '-'
    · subst hhyphen
      -- one hyphen, with no other behind it
      exact shield_hyphen (h rfl)
    · exact shield_cons (by simp [IsInert, *]) cs

/-- The characters of a string are shielded to their shielded forms, up to the closing quote. -/
theorem shield_flatMap_stringChar (s rest : List Char) :
    shield (s.flatMap stringChar ++ '"' :: rest) = shieldedChars s ++ '"' :: shield rest := by
  fun_induction shieldedChars s with
  | case1 s ih =>
    have hstep : shield ((('-' :: '-' :: s).flatMap stringChar) ++ '"' :: rest)
        = "\\u002d\\u002d".toList ++ shield (s.flatMap stringChar ++ '"' :: rest) := rfl
    rw [hstep, ih]
    rfl
  | case2 c s hne ih =>
    -- after a hyphen comes no other, and no escape starts with one
    have hhead : c = '-' → (s.flatMap stringChar ++ '"' :: rest).head? ≠ some '-' := by
      rintro rfl
      cases s with
      | nil => simp
      | cons d s =>
        obtain ⟨e, cs, hcs, he⟩ := Json.stringChar_eq_cons d
        have hd : d ≠ '-' := fun hd ↦ hne s rfl (hd ▸ rfl)
        rw [List.flatMap_cons, hcs]
        rcases he with rfl | rfl <;> simp [hd]
    rw [List.flatMap_cons, List.append_assoc, shield_stringChar hhead, ih, List.append_assoc]
  | case3 => exact shield_cons (by decide) rest

/-- The shielded text of a value is its compact text with shielded strings. -/
theorem shield_quotedWith (s : String) (rest : List Char) :
    shield (quotedWith (·.flatMap stringChar) s ++ rest)
      = quotedWith shieldedChars s ++ shield rest := by
  simp only [quotedWith, List.cons_append, List.append_assoc, List.nil_append]
  rw [shield_cons (by decide), shield_flatMap_stringChar]

/-- Shielding leaves integers alone: a minus sign has no hyphen behind it. -/
theorem shield_integerChars (i : Int) (rest : List Char) :
    shield (Json.integerChars i ++ rest) = Json.integerChars i ++ shield rest := by
  have hdigits : ∀ n, ∀ c ∈ Json.decimalChars n, IsInert c := fun n c hc ↦
    isInert_of_isDigit (Json.isDigit_of_mem_decimalChars hc)
  cases i with
  | ofNat n => exact shield_append _ (hdigits n) rest
  | negSucc n =>
    obtain ⟨d, cs, hcs, hd, -⟩ := Json.decimalChars_eq_cons (n + 1)
    have hhead : (Json.decimalChars (n + 1) ++ rest).head? ≠ some '-' := by
      rw [hcs]
      intro h
      have := Json.isDigit_digit hd
      rw [Option.some.inj h] at this
      exact absurd this (by decide)
    rw [Json.integerChars, List.cons_append, shield_hyphen hhead, shield_append _ (hdigits _) rest]
    rfl

mutual

/-- Shielding works on the text of a value as on its strings, one by one. `rest` stands for what
follows the value in a container, so that the recursion can go on behind it. -/
theorem shield_compactWith : ∀ (v : Json) (rest : List Char), v.HasWordNumbers →
    shield (v.compactWith (·.flatMap stringChar) ++ rest)
      = v.compactWith shieldedChars ++ shield rest
  | .null, rest, _ => shield_word ['n', 'u', 'l', 'l'] (by decide) rest
  | .bool true, rest, _ => shield_word ['t', 'r', 'u', 'e'] (by decide) rest
  | .bool false, rest, _ => shield_word ['f', 'a', 'l', 's', 'e'] (by decide) rest
  | .number (.int i), rest, _ => shield_integerChars i rest
  | .string s, rest, _ => shield_quotedWith s rest
  | .array [], rest, _ => shield_word ['[', ']'] (by decide) rest
  | .array (v :: vs), rest, h => by
    simp only [compactWith, List.append_assoc, List.cons_append, List.nil_append]
    rw [shield_cons (by decide), shield_compactWith v _ h.1, shield_itemsWith vs _ h.2,
      shield_cons (by decide)]
  | .object [], rest, _ => shield_word ['\x7b', '\x7d'] (by decide) rest
  | .object ((k, v) :: fs), rest, h => by
    simp only [compactWith, List.append_assoc, List.cons_append, List.nil_append]
    rw [shield_cons (by decide), shield_quotedWith, shield_cons (by decide),
      shield_compactWith v _ h.1, shield_fieldsWith fs _ h.2, shield_cons (by decide)]

theorem shield_itemsWith : ∀ (vs : List Json) (rest : List Char), Json.ItemsHaveWordNumbers vs →
    shield (itemsWith (·.flatMap stringChar) vs ++ rest) = itemsWith shieldedChars vs ++ shield rest
  | [], _, _ => rfl
  | v :: vs, rest, h => by
    simp only [itemsWith, List.append_assoc, List.cons_append]
    rw [shield_cons (by decide), shield_compactWith v _ h.1, shield_itemsWith vs _ h.2]

theorem shield_fieldsWith : ∀ (fs : List (String × Json)) (rest : List Char),
    Json.FieldsHaveWordNumbers fs →
      shield (fieldsWith (·.flatMap stringChar) fs ++ rest)
        = fieldsWith shieldedChars fs ++ shield rest
  | [], _, _ => rfl
  | (k, v) :: fs, rest, h => by
    simp only [fieldsWith, List.append_assoc, List.cons_append]
    rw [shield_cons (by decide), shield_quotedWith, shield_cons (by decide),
      shield_compactWith v _ h.1, shield_fieldsWith fs _ h.2]

end

/-- Attributes in a comment are a compact text with shielded strings. -/
theorem encodeChars_eq_compactWith {attrs : Json.Fields}
    (h : (Json.object attrs).HasWordNumbers) :
    encodeChars attrs = (Json.object attrs).compactWith shieldedChars := by
  have := shield_compactWith (.object attrs) [] h
  rwa [List.append_nil, Json.compactWith_stringChar, show shield [] = [] from rfl,
    List.append_nil] at this

/-- Nothing in the text of attributes looks like markup. -/
theorem forall_mem_encodeChars {attrs : Json.Fields} (h : (Json.object attrs).HasWordNumbers) :
    ∀ c ∈ encodeChars attrs, c ∉ ['<', '>', '&'] := by
  rw [encodeChars_eq_compactWith h]
  refine Json.forall_mem_compactWith (fun c hc ↦ ?_) (fun s c hc hmem ↦ ?_) _ h
  · intro hmem
    simp only [List.mem_cons, List.not_mem_nil, or_false] at hmem
    rcases hmem with rfl | rfl | rfl <;> exact absurd hc (by decide)
  · exact forall_mem_shieldedChars s c hc (List.mem_cons_of_mem _ hmem)

/-- The text of attributes is enclosed in braces. -/
theorem encodeChars_eq_braces {attrs : Json.Fields} (h : (Json.object attrs).HasWordNumbers) :
    ∃ cs, encodeChars attrs = '{' :: cs ++ ['}'] := by
  rw [encodeChars_eq_compactWith h]
  match attrs with
  | [] => exact ⟨[], rfl⟩
  | (k, v) :: fs => exact ⟨_, rfl⟩

/-- Attributes read back from a comment. -/
theorem parse?_encodeChars {attrs : Json.Fields} (h : IsRepresentable attrs) :
    Json.Fields.parse? (encodeChars attrs) = some attrs := by
  have hstop : Json.StopsNumber [] := fun c hc ↦ nomatch hc
  have htokens := Json.tokens?_compactWith writes_shieldedChars (.object attrs) h.words hstop
  simp only [List.append_nil, ← encodeChars_eq_compactWith h.words, Json.tokens?,
    Option.map_some] at htokens
  rw [Json.Fields.parse?, Json.value?_ofChars? htokens h.wellFormed h.shallow]

end PostBlocks.Attributes
