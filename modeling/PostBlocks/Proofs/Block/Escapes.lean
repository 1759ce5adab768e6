import PostBlocks.Proofs.Block.Attributes
import PostBlocks.Proofs.Text.Ends

/-!
# What shielding changes

A JSON text is read stroke by stroke: a backslash and the character behind it are one stroke, any
other character is one of its own (`Json.strokes`). Shielding pairs up backslashes in the same way,
so what it does to a text is known stroke by stroke, whatever the text says: no stroke of the result
is an escaped quote (`quote_not_mem_strokes_shield`), and the strokes that have a slash or a
character beyond ASCII are those of the text (`filter_strokes_shield`). Two hyphens come to stand
next to each other only where the text escapes one (`not_infix_shield`), and no value is written
with such an escape (`hyphen_not_mem_strokes_compactChars`).

So attributes in a comment have nothing in them that ends it or looks like markup, spell slashes and
characters beyond ASCII as they are, and read back (`encode_shields`).
-/

namespace PostBlocks

/-! ### Strokes of a JSON text -/

namespace Json

/-- A JSON text stroke by stroke: a backslash with the character that it escapes, or one other
character. -/
def strokes : List Char → List (List Char)
  | '\\' :: c :: cs => ['\\', c] :: strokes cs
  | c :: cs => [c] :: strokes cs
  | [] => []

/-- A character that escapes nothing, and a backslash at the end does not, is a stroke. -/
theorem strokes_cons_of_imp {c : Char} {cs : List Char} (h : c = '\\' → cs = []) :
    strokes (c :: cs) = [c] :: strokes cs := by
  rw [strokes.eq_def]
  split
  · next heq =>
    obtain ⟨rfl, rfl⟩ := List.cons.inj heq
    cases h rfl
  · next heq =>
    obtain ⟨rfl, rfl⟩ := List.cons.inj heq
    rfl
  · next heq => cases heq

theorem strokes_cons {c : Char} (h : c ≠ '\\') (cs : List Char) :
    strokes (c :: cs) = [c] :: strokes cs :=
  strokes_cons_of_imp fun heq ↦ absurd heq h

/-- A stretch without backslashes goes stroke by stroke as it goes character by character, and what
follows it is read from its own start. -/
theorem strokes_append {ds : List Char} (h : '\\' ∉ ds) (cs : List Char) :
    strokes (ds ++ cs) = ds.map ([·]) ++ strokes cs := by
  induction ds with
  | nil => rfl
  | cons d ds ih =>
    rw [List.mem_cons, not_or] at h
    rw [List.cons_append, strokes_cons (Ne.symm h.1), ih h.2, List.map_cons, List.cons_append]

mutual

/-- The characters of the keys and strings of a value, in order. -/
def textChars : Json → List Char
  | string s => s.toList
  | array vs => itemsTextChars vs
  | object fs => fieldsTextChars fs
  | _ => []

/-- The characters of the keys and strings of some items. -/
def itemsTextChars : List Json → List Char
  | [] => []
  | v :: vs => v.textChars ++ itemsTextChars vs

/-- The characters of the keys and strings of some fields. -/
def fieldsTextChars : List (String × Json) → List Char
  | [] => []
  | (k, v) :: fs => k.toList ++ v.textChars ++ fieldsTextChars fs

end

/-- A test of strokes that fails whatever stands outside of strings and starts a numbered escape. -/
structure IgnoresLayout (p : List Char → Bool) : Prop where
  layout : ∀ c, IsLayoutChar c → p [c] = false
  unicode : p ['\\', 'u'] = false

/-- A test of strokes that also fails every escape and every character that has to be escaped. -/
structure SeesText (p : List Char → Bool) : Prop extends IgnoresLayout p where
  letter : ∀ e ∈ ['"', '\\', 'b', 't', 'n', 'f', 'r'], p ['\\', e] = false
  escaped : ∀ c : Char, c = '"' ∨ c = '\\' ∨ c.toNat < 0x20 → p [c] = false

variable {p : List Char → Bool}

/-- Layout in front of a text does not count. -/
theorem IgnoresLayout.append (hp : IgnoresLayout p) {ds : List Char}
    (h : ∀ c ∈ ds, IsLayoutChar c) (rest : List Char) :
    (strokes (ds ++ rest)).filter p = (strokes rest).filter p := by
  have hslash : '\\' ∉ ds := fun hmem ↦ absurd (h _ hmem) (by decide)
  have hnone : (ds.map ([·])).filter p = [] := by
    refine List.filter_eq_nil_iff.2 fun x hx ↦ ?_
    obtain ⟨c, hc, rfl⟩ := List.mem_map.1 hx
    rw [hp.layout c (h c hc)]
    exact Bool.false_ne_true
  rw [strokes_append hslash, List.filter_append, hnone, List.nil_append]

theorem IgnoresLayout.cons (hp : IgnoresLayout p) {c : Char} (h : IsLayoutChar c)
    (rest : List Char) : (strokes (c :: rest)).filter p = (strokes rest).filter p :=
  hp.append (List.forall_mem_singleton.2 h) rest

/-- A numbered escape is ignored. -/
theorem IgnoresLayout.escape (hp : IgnoresLayout p) (ds : List Char)
    (h : ∀ c ∈ ds, IsLayoutChar c) (rest : List Char) :
    (strokes ('\\' :: 'u' :: (ds ++ rest))).filter p = (strokes rest).filter p := by
  rw [strokes, List.filter_cons_of_neg (by rw [hp.unicode]; exact Bool.false_ne_true), hp.append h]

namespace SeesText

variable (hp : SeesText p)
include hp

/-- What is seen of a written character is what is seen of the character. -/
theorem stringChar (c : Char) (rest : List Char) :
    (strokes (Json.stringChar c ++ rest)).filter p = [[c]].filter p ++ (strokes rest).filter p := by
  have hletter : ∀ e ∈ ['"', '\\', 'b', 't', 'n', 'f', 'r'],
      (strokes ('\\' :: e :: rest)).filter p = (strokes rest).filter p := by
    intro e he
    rw [strokes, List.filter_cons_of_neg (by simp [hp.letter e he])]
  have hescaped : c = '"' ∨ c = '\\' ∨ c.toNat < 0x20 → [[c]].filter p = [] := fun hc ↦ by
    rw [List.filter_cons_of_neg (by simp [hp.escaped c hc]), List.filter_nil]
  unfold Json.stringChar
  -- seven characters are escaped with a letter of their own
  iterate 7
    split
    · next hc =>
      subst hc
      rw [hescaped (by decide), List.nil_append]
      exact hletter _ (by decide)
  split
  · next hc =>
    have hhex : ∀ n < 16, IsLayoutChar (hexDigit n) := by decide
    rw [hescaped (.inr (.inr hc)), List.nil_append]
    refine hp.escape ['0', '0', hexDigit (c.toNat / 16), hexDigit (c.toNat % 16)] ?_ rest
    simp only [List.forall_mem_cons, List.not_mem_nil, false_implies, implies_true, and_true]
    exact ⟨by decide, by decide, hhex _ (by omega), hhex _ (by omega)⟩
  · next hslash _ _ _ _ _ _ =>
    rw [List.singleton_append, strokes_cons hslash, ← List.filter_append, List.singleton_append]

/-- Of a written string is seen what is seen of its characters. -/
theorem quotedWith (s : String) (rest : List Char) :
    (strokes (Json.quotedWith (·.flatMap Json.stringChar) s ++ rest)).filter p
      = (s.toList.map ([·])).filter p ++ (strokes rest).filter p := by
  have hchars : ∀ cs : List Char, (strokes (cs.flatMap Json.stringChar ++ '"' :: rest)).filter p
      = (cs.map ([·])).filter p ++ (strokes rest).filter p := by
    intro cs
    induction cs with
    | nil => exact hp.cons (by decide) rest
    | cons c cs ih =>
      rw [List.flatMap_cons, List.append_assoc, hp.stringChar, ih, ← List.append_assoc,
        ← List.filter_append, List.map_cons, List.singleton_append]
  simp only [Json.quotedWith, List.cons_append, List.append_assoc, List.nil_append]
  rw [hp.cons (by decide), hchars]

mutual

/-- What is seen of a compact text is what is seen of the characters of its strings. -/
theorem compactWith : ∀ (v : Json) (rest : List Char), v.HasWordNumbers →
    (strokes (v.compactWith (·.flatMap Json.stringChar) ++ rest)).filter p
      = (v.textChars.map ([·])).filter p ++ (strokes rest).filter p
  | null, rest, _ | bool true, rest, _ | bool false, rest, _ | array [], rest, _
  | object [], rest, _ => hp.append (List.all_iff_forall_prop.1 (by decide)) rest
  | number (.int i), rest, _ => hp.append (fun _ ↦ isLayoutChar_of_mem_integerChars) rest
  | string s, rest, _ => hp.quotedWith s rest
  | array (v :: vs), rest, h => by
    simp only [Json.compactWith, textChars, itemsTextChars, List.cons_append, List.append_assoc,
      List.nil_append, List.map_append, List.filter_append]
    rw [hp.cons (by decide), compactWith v _ h.1, itemsWith vs _ h.2, hp.cons (by decide)]
  | object ((k, v) :: fs), rest, h => by
    simp only [Json.compactWith, textChars, fieldsTextChars, List.cons_append, List.append_assoc,
      List.nil_append, List.map_append, List.filter_append]
    rw [hp.cons (by decide), hp.quotedWith, hp.cons (by decide), compactWith v _ h.1,
      fieldsWith fs _ h.2, hp.cons (by decide)]

theorem itemsWith : ∀ (vs : List Json) (rest : List Char), ItemsHaveWordNumbers vs →
    (strokes (Json.itemsWith (·.flatMap Json.stringChar) vs ++ rest)).filter p
      = ((itemsTextChars vs).map ([·])).filter p ++ (strokes rest).filter p
  | [], _, _ => rfl
  | v :: vs, rest, h => by
    simp only [Json.itemsWith, itemsTextChars, List.cons_append, List.append_assoc, List.map_append,
      List.filter_append]
    rw [hp.cons (by decide), compactWith v _ h.1, itemsWith vs _ h.2]

theorem fieldsWith : ∀ (fs : List (String × Json)) (rest : List Char), FieldsHaveWordNumbers fs →
    (strokes (Json.fieldsWith (·.flatMap Json.stringChar) fs ++ rest)).filter p
      = ((fieldsTextChars fs).map ([·])).filter p ++ (strokes rest).filter p
  | [], _, _ => rfl
  | (k, v) :: fs, rest, h => by
    simp only [Json.fieldsWith, fieldsTextChars, List.cons_append, List.append_assoc,
      List.map_append, List.filter_append]
    rw [hp.cons (by decide), hp.quotedWith, hp.cons (by decide), compactWith v _ h.1,
      fieldsWith fs _ h.2]

end

end SeesText

end Json

namespace Attributes

open Json (strokes strokes_cons strokes_cons_of_imp IgnoresLayout SeesText IsLayoutChar)

/-! ### Strokes of a shielded text -/

/-- A backslash that does not escape a next character has none behind it. -/
theorem eq_nil_of_imp {c : Char} {cs : List Char}
    (h : ∀ (d : Char) (ds : List Char), c = '\\' → cs = d :: ds → False) (hc : c = '\\') :
    cs = [] :=
  match cs with
  | [] => rfl
  | d :: ds => (h d ds hc rfl).elim

/-- Shielding changes no strokes but escaped quotes, hyphens, angle brackets and ampersands. -/
theorem filter_strokes_shield {p : List Char → Bool} (hp : IgnoresLayout p)
    (hmarkup : ∀ c ∈ ['<', '>', '&'], p [c] = false) (cs : List Char) :
    (strokes (shield cs)).filter p = (strokes cs).filter fun s ↦ p s && s != ['\\', '"'] := by
  have hskip : ∀ (c : Char) (ds : List Char), c ≠ '\\' → p [c] = false →
      (strokes (c :: ds)).filter (fun s ↦ p s && s != ['\\', '"'])
        = (strokes ds).filter fun s ↦ p s && s != ['\\', '"'] := by
    intro c ds hc hpc
    rw [strokes_cons hc, List.filter_cons_of_neg (by simp [hpc])]
  have hescape : ∀ d e : Char, IsLayoutChar d ∧ IsLayoutChar e → ∀ cs,
      (strokes ('\\' :: 'u' :: '0' :: '0' :: d :: e :: cs)).filter p = (strokes cs).filter p := by
    intro d e hde cs
    refine hp.escape ['0', '0', d, e] ?_ cs
    simp only [List.forall_mem_cons, List.not_mem_nil, false_imp_iff, implies_true, and_true]
    exact ⟨by decide, by decide, hde⟩
  fun_induction shield cs with
  | case1 cs ih =>
    -- the escaped quote, which both sides leave out: one as written, one as escaped by number
    rw [strokes, List.filter_cons_of_neg (by simp), ← ih]
    exact hescape '2' '2' (by decide) _
  | case2 c cs hc ih =>
    have hkeep : ['\\', c] ≠ ['\\', '"'] := fun heq ↦ hc (by simpa using heq)
    rw [strokes, strokes, List.filter_cons, List.filter_cons, ih, bne_iff_ne.2 hkeep,
      Bool.and_true]
  | case3 cs ih =>
    -- two hyphens are two strokes before and two escapes after
    have hhyphen := hp.layout '-' (by decide)
    rw [hskip _ _ (by decide) hhyphen, hskip _ _ (by decide) hhyphen, ← ih]
    exact (hescape '2' 'd' (by decide) _).trans (hescape '2' 'd' (by decide) _)
  | case4 cs ih =>
    rw [hskip _ _ (by decide) (hmarkup _ (by decide)), ← ih]
    exact hescape '3' 'c' (by decide) _
  | case5 cs ih =>
    rw [hskip _ _ (by decide) (hmarkup _ (by decide)), ← ih]
    exact hescape '3' 'e' (by decide) _
  | case6 cs ih =>
    rw [hskip _ _ (by decide) (hmarkup _ (by decide)), ← ih]
    exact hescape '2' '6' (by decide) _
  | case7 c cs _ hslash _ _ _ _ ih =>
    have hend : c = '\\' → cs = [] := eq_nil_of_imp hslash
    have hend' : c = '\\' → shield cs = [] := fun hc ↦ by
      rw [hend hc]
      rfl
    rw [strokes_cons_of_imp hend, strokes_cons_of_imp hend', List.filter_cons, List.filter_cons, ih]
    simp
  | case8 => rfl

/-- No quote of a shielded text is escaped by a backslash. -/
theorem quote_not_mem_strokes_shield (cs : List Char) : ['\\', '"'] ∉ strokes (shield cs) := by
  intro hmem
  have hquote : IgnoresLayout (· == ['\\', '"']) := ⟨fun c _ ↦ by simp, by decide⟩
  have hstroke : ['\\', '"'] ∈ (strokes (shield cs)).filter (· == ['\\', '"']) :=
    List.mem_filter.2 ⟨hmem, beq_self_eq_true _⟩
  rw [filter_strokes_shield hquote (by simp), List.mem_filter] at hstroke
  exact absurd hstroke.2 (by decide)

/-! ### Hyphens -/

/-- Shielding brings no hyphen to the front. -/
theorem head?_shield {cs : List Char} (h : cs.head? ≠ some '-') :
    (shield cs).head? ≠ some '-' := by
  rw [shield.eq_def]
  split <;> simp_all

/-- Two hyphens come to stand side by side only if one of them is escaped. -/
theorem not_infix_shield {cs : List Char} (h : ['\\', '-'] ∉ strokes cs) :
    ¬['-', '-'] <:+: shield cs := by
  fun_induction shield cs with
  | case1 cs ih =>
    rw [strokes, List.mem_cons, not_or] at h
    rw [Text.infix_append_iff_of_not_mem (by decide)]
    exact ih h.2
  | case2 c cs _ ih =>
    rw [strokes, List.mem_cons, not_or] at h
    have hc : '-' ∉ ['\\', c] := by simpa using h.1
    exact fun hinfix ↦ ih h.2 ((Text.infix_append_iff_of_not_mem hc _ _).1 hinfix)
  | case3 cs ih =>
    rw [strokes_cons (by decide), strokes_cons (by decide), List.mem_cons, List.mem_cons, not_or,
      not_or] at h
    rw [Text.infix_append_iff_of_not_mem (by decide)]
    exact ih h.2.2
  | case4 cs ih | case5 cs ih | case6 cs ih =>
    rw [strokes_cons (by decide), List.mem_cons, not_or] at h
    rw [Text.infix_append_iff_of_not_mem (by decide)]
    exact ih h.2
  | case7 c cs _ hslash hhyphen _ _ _ ih =>
    rw [strokes_cons_of_imp (eq_nil_of_imp hslash), List.mem_cons, not_or] at h
    by_cases hc : c = '-'
    · -- the next character is no hyphen, and does not become one
      subst hc
      have hhead : cs.head? ≠ some '-' := fun heq ↦ by
        obtain ⟨ds, rfl⟩ := List.head?_eq_some_iff.1 heq
        exact hhyphen ds rfl rfl
      rw [List.infix_cons_iff, List.cons_prefix_cons]
      rintro (⟨-, ds, hds⟩ | hinfix)
      · exact head?_shield hhead (hds ▸ rfl)
      · exact ih h.2 hinfix
    · have hsingle : '-' ∉ [c] := by simpa using Ne.symm hc
      exact fun hinfix ↦ ih h.2 ((Text.infix_append_iff_of_not_mem hsingle _ _).1 hinfix)
  | case8 => decide

/-! ### Attributes -/

/-- A slash, or a character beyond ASCII. -/
def isPlain (c : Char) : Bool :=
  c == '/' || 128 ≤ c.toNat

theorem toNat_lt_of_isAlphanum {c : Char} (h : c.isAlphanum = true) : c.toNat < 128 := by
  have h : (c.isUpper || c.isLower || c.isDigit) = true := h
  rw [Bool.or_eq_true, Bool.or_eq_true] at h
  rcases h with (hupper | hlower) | hdigit
  · have hle : c.val ≤ 'Z'.val := (of_decide_eq_true hupper).2
    exact Nat.lt_of_le_of_lt (UInt32.le_iff_toNat_le.1 hle) (by decide)
  · have hle : c.val ≤ 'z'.val := of_decide_eq_true (Bool.and_eq_true_iff.1 hlower).2
    exact Nat.lt_of_le_of_lt (UInt32.le_iff_toNat_le.1 hle) (by decide)
  · exact Nat.lt_of_le_of_lt (Char.isDigit_iff_toNat.1 hdigit).2 (by decide)

theorem isPlain_of_isLayoutChar {c : Char} (h : IsLayoutChar c) : isPlain c = false := by
  rcases h with h | h
  · exact (List.all_iff_forall_prop (p := (isPlain · = false))).1 (by decide) c h
  · have hslash : c ≠ '/' := fun heq ↦ by
      rw [heq] at h
      exact absurd h (by decide)
    have hascii := toNat_lt_of_isAlphanum h
    simp [isPlain, hslash, hascii]

/-- Whether a stroke has a slash or a character beyond ASCII shows in strings only. -/
theorem seesText_any_isPlain : SeesText (·.any isPlain) where
  layout c hc := by simp [isPlain_of_isLayoutChar hc]
  unicode := by decide
  letter := List.all_iff_forall_prop.1 (by decide)
  escaped c hc := by
    rcases hc with rfl | rfl | hc
    · decide
    · decide
    · have hslash : c ≠ '/' := fun heq ↦ by
        rw [heq] at hc
        exact absurd hc (by decide)
      have hascii : c.toNat < 128 := by omega
      simp [isPlain, hslash, hascii]

/-- Whether a stroke is an escaped hyphen shows in strings only, and not in these either. -/
theorem seesText_escaped_hyphen : SeesText (· == ['\\', '-']) where
  layout c _ := by simp
  unicode := by decide
  letter := List.all_iff_forall_prop.1 (by decide)
  escaped c _ := by simp

/-- What is seen of the compact text of some attributes is what is seen of their keys and
strings. -/
theorem filter_strokes_compactChars {attrs : Json.Fields} (h : (Json.object attrs).HasWordNumbers)
    {p : List Char → Bool} (hp : SeesText p) :
    (strokes (Json.object attrs).compactChars).filter p
      = ((Json.object attrs).textChars.map ([·])).filter p := by
  have hrest := hp.compactWith (.object attrs) [] h
  rwa [List.append_nil, Json.compactWith_stringChar, show strokes [] = [] from rfl,
    List.filter_nil, List.append_nil] at hrest

/-- The printer escapes no hyphen, so none of its texts is one that `not_infix_shield` leaves out.
-/
theorem hyphen_not_mem_strokes_compactChars {attrs : Json.Fields}
    (h : (Json.object attrs).HasWordNumbers) :
    ['\\', '-'] ∉ strokes (Json.object attrs).compactChars := by
  intro hmem
  have hstroke : ['\\', '-'] ∈
      (strokes (Json.object attrs).compactChars).filter (· == ['\\', '-']) :=
    List.mem_filter.2 ⟨hmem, beq_self_eq_true _⟩
  rw [filter_strokes_compactChars h seesText_escaped_hyphen] at hstroke
  simpa using (List.mem_filter.1 hstroke).1

/-- The slashes and the characters beyond ASCII of some attributes are written as they are. -/
theorem filter_strokes_encodeChars {attrs : Json.Fields}
    (h : (Json.object attrs).HasWordNumbers) :
    (strokes (encodeChars attrs)).filter (·.any isPlain)
      = ((Json.object attrs).textChars.filter isPlain).map ([·]) := by
  have hmarkup : ∀ c ∈ ['<', '>', '&'], [c].any isPlain = false :=
    List.all_iff_forall_prop.1 (by decide)
  have hquote : (fun s : List Char ↦ s.any isPlain && s != ['\\', '"']) = (·.any isPlain) := by
    funext s
    by_cases hs : s = ['\\', '"']
    · subst hs
      decide
    · rw [bne_iff_ne.2 hs, Bool.and_true]
  rw [encodeChars, filter_strokes_shield seesText_any_isPlain.toIgnoresLayout hmarkup, hquote,
    filter_strokes_compactChars h seesText_any_isPlain, List.filter_map]
  refine congrArg (List.map _) (List.filter_congr fun c _ ↦ ?_)
  simp

/-- Attributes in a comment are written with no pair of hyphens, angle bracket, ampersand or escaped
quote. The slashes and the characters beyond ASCII of their keys and strings, and no others, are
written, each as it is. They read back as the same attributes in the same order. -/
theorem encode_shields {attrs : Json.Fields} (h : IsRepresentable attrs) :
    ¬['-', '-'] <:+: (encode attrs).toList
      ∧ (∀ c ∈ (encode attrs).toList, c ∉ ['<', '>', '&'])
      ∧ ['\\', '"'] ∉ strokes (encode attrs).toList
      ∧ (strokes (encode attrs).toList).filter (·.any isPlain)
        = ((Json.object attrs).textChars.filter isPlain).map ([·])
      ∧ Json.Fields.parse? (encode attrs).toList = some attrs := by
  rw [encode, String.toList_ofList]
  exact ⟨not_infix_shield (hyphen_not_mem_strokes_compactChars h.words),
    forall_mem_encodeChars h.words, quote_not_mem_strokes_shield _,
    filter_strokes_encodeChars h.words, parse?_encodeChars h⟩

/-- Backslashes in front of a quote, three hyphens, a slash and a letter beyond ASCII. -/
theorem encode_shields_path : ¬['-', '-'] <:+: (encode [("ü\\", .string "a\\\"---/<é")]).toList
    ∧ (∀ c ∈ (encode [("ü\\", .string "a\\\"---/<é")]).toList, c ∉ ['<', '>', '&'])
    ∧ ['\\', '"'] ∉ strokes (encode [("ü\\", .string "a\\\"---/<é")]).toList
    ∧ (strokes (encode [("ü\\", .string "a\\\"---/<é")]).toList).filter (·.any isPlain)
      = [['ü'], ['/'], ['é']]
    ∧ Json.Fields.parse? (encode [("ü\\", .string "a\\\"---/<é")]).toList
      = some [("ü\\", .string "a\\\"---/<é")] :=
  encode_shields (isRepresentable_of_flat (by decide) (List.forall_mem_singleton.2 ⟨trivial, rfl⟩))

end Attributes

end PostBlocks
