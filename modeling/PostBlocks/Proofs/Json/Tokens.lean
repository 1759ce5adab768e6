import PostBlocks.Proofs.Json.Numbers
import PostBlocks.Proofs.Json.Numeral
import PostBlocks.Proofs.Json.Quoted

/-!
# Compact texts and their tokens

A value has a sequence of tokens (`tokens`), and a text of the value is one that is cut into them.
The compact text is such a text, and so is each text that differs from it only in how the characters
of strings are written: `compactWith write` is the compact layout with strings written by `write`,
and `tokens?_compactWith` asks of `write` no more than that it can be read (`Writes`). Integers of a
word are read as themselves; in general a number is read as some number (`Number.ReadsAs`), and the
tokens are those of the value with its numbers replaced (`tokens?_compactWith_mapNumbers`).
-/

namespace PostBlocks.Json

/-! ### The tokens of a value -/

mutual

/-- The tokens that a value is written with. -/
def tokens : Json → List Token
  | null => [.null]
  | bool b => [.bool b]
  | number n => [.number (some n)]
  | string s => [.string (some s)]
  | array [] => [.openArray, .closeArray]
  | array (v :: vs) => .openArray :: v.tokens ++ itemTokens vs ++ [.closeArray]
  | object [] => [.openObject, .closeObject]
  | object ((k, v) :: fs) =>
    .openObject :: .string (some k) :: .colon :: v.tokens ++ fieldTokens fs ++ [.closeObject]

/-- The tokens of the items after the first. -/
def itemTokens : List Json → List Token
  | [] => []
  | v :: vs => .comma :: v.tokens ++ itemTokens vs

/-- The tokens of the fields after the first. -/
def fieldTokens : List (String × Json) → List Token
  | [] => []
  | (k, v) :: fs => .comma :: .string (some k) :: .colon :: v.tokens ++ fieldTokens fs

end

/-! ### Compact layout with strings written in a given way -/

/-- Characters in quotes. -/
def quotedWith (write : List Char → List Char) (s : String) : List Char :=
  '"' :: write s.toList ++ ['"']

mutual

/-- A value without any space, the characters of its strings written by `write`. -/
def compactWith (write : List Char → List Char) : Json → List Char
  | null => ['n', 'u', 'l', 'l']
  | bool true => ['t', 'r', 'u', 'e']
  | bool false => ['f', 'a', 'l', 's', 'e']
  | number n => n.chars
  | string s => quotedWith write s
  | array [] => ['[', ']']
  | array (v :: vs) => '[' :: v.compactWith write ++ itemsWith write vs ++ [']']
  | object [] => ['{', '}']
  | object ((k, v) :: fs) =>
    '{' :: quotedWith write k ++ ':' :: v.compactWith write ++ fieldsWith write fs ++ ['}']

/-- The items after the first, each with the comma in front of it. -/
def itemsWith (write : List Char → List Char) : List Json → List Char
  | [] => []
  | v :: vs => ',' :: v.compactWith write ++ itemsWith write vs

/-- The fields after the first, each with the comma in front of it. -/
def fieldsWith (write : List Char → List Char) : List (String × Json) → List Char
  | [] => []
  | (k, v) :: fs => ',' :: quotedWith write k ++ ':' :: v.compactWith write ++ fieldsWith write fs

end

mutual

/-- The compact text escapes each character by itself. -/
theorem compactWith_stringChar : ∀ v : Json,
    v.compactWith (·.flatMap stringChar) = v.compactChars
  | null | bool true | bool false | number _ => rfl
  | string _ => rfl
  | array [] | object [] => rfl
  | array (v :: vs) => by
    rw [compactWith, compactChars, compactWith_stringChar v, ← compactItems_cons v vs]
    simp
  | object ((k, v) :: fs) => by
    rw [compactWith, compactChars, compactWith_stringChar v, ← compactFields_cons k v fs]
    simp [quotedWith, quotedChars]

/-- The printer looks ahead to tell whether a comma follows an item; here a comma belongs to the
item behind it. -/
theorem compactItems_cons : ∀ (v : Json) (vs : List Json),
    v.compactChars ++ itemsWith (·.flatMap stringChar) vs = compactItems (v :: vs)
  | v, [] => by simp [itemsWith, compactItems]
  | v, w :: vs => by
    rw [itemsWith, compactWith_stringChar w, compactItems, ← compactItems_cons w vs]
    · simp
    · simp

/-- The same for fields. -/
theorem compactFields_cons : ∀ (k : String) (v : Json) (fs : List (String × Json)),
    quotedChars k ++ ':' :: v.compactChars ++ fieldsWith (·.flatMap stringChar) fs
      = compactFields ((k, v) :: fs)
  | k, v, [] => by simp [fieldsWith, compactFields]
  | k, v, (l, w) :: fs => by
    have ih := compactFields_cons l w fs
    rw [fieldsWith, compactWith_stringChar w, compactFields, ← ih]
    · simp [quotedWith, quotedChars]
    · simp

end

/-! ### The characters of a compact text -/

/-- A character that a compact text has outside of its strings. -/
def IsLayoutChar (c : Char) : Prop :=
  c ∈ ['[', ']', '{', '}', ',', ':', '"', '-'] ∨ c.isAlphanum = true

instance (c : Char) : Decidable (IsLayoutChar c) :=
  inferInstanceAs (Decidable (_ ∨ _))

section

variable {write : List Char → List Char} {P : Char → Prop}

theorem forall_mem_quotedWith (hlayout : ∀ c, IsLayoutChar c → P c)
    (hwrite : ∀ s, ∀ c ∈ write s, P c) (s : String) : ∀ c ∈ quotedWith write s, P c := by
  intro c hc
  simp only [quotedWith, List.mem_cons, List.mem_append, List.not_mem_nil, or_false] at hc
  rcases hc with (rfl | hc) | rfl
  · exact hlayout _ (by decide)
  · exact hwrite _ c hc
  · exact hlayout _ (by decide)

/-- An integer is written with digits and perhaps a minus sign in front. -/
theorem isLayoutChar_of_mem_integerChars {i : Int} {c : Char} (h : c ∈ integerChars i) :
    IsLayoutChar c := by
  have hdigits : ∀ n, c ∈ decimalChars n → IsLayoutChar c := fun n hc ↦ by
    simp [IsLayoutChar, Char.isAlphanum, isDigit_of_mem_decimalChars hc]
  cases i with
  | ofNat n => exact hdigits n h
  | negSucc n =>
    rcases List.mem_cons.1 h with rfl | h
    · decide
    · exact hdigits _ h

mutual

/-- What holds of layout and of written strings holds of all of a compact text. -/
theorem forall_mem_compactWith (hlayout : ∀ c, IsLayoutChar c → P c)
    (hwrite : ∀ s, ∀ c ∈ write s, P c) :
    ∀ v : Json, v.HasWordNumbers → ∀ c ∈ v.compactWith write, P c
  | null, _, c, hc | bool true, _, c, hc | bool false, _, c, hc | array [], _, c, hc
  | object [], _, c, hc => by
    refine hlayout c ?_
    simp only [compactWith, List.mem_cons, List.not_mem_nil, or_false] at hc
    rcases hc with rfl | rfl | rfl | rfl | rfl <;> decide
  | number (.int i), _, c, hc => hlayout c (isLayoutChar_of_mem_integerChars hc)
  | string s, _, c, hc => forall_mem_quotedWith hlayout hwrite s c hc
  | array (v :: vs), h, c, hc => by
    simp only [compactWith, List.mem_cons, List.mem_append, List.not_mem_nil, or_false] at hc
    rcases hc with ((rfl | hc) | hc) | rfl
    · exact hlayout _ (by decide)
    · exact forall_mem_compactWith hlayout hwrite v h.1 c hc
    · exact forall_mem_itemsWith hlayout hwrite vs h.2 c hc
    · exact hlayout _ (by decide)
  | object ((k, v) :: fs), h, c, hc => by
    simp only [compactWith, List.mem_cons, List.mem_append, List.not_mem_nil, or_false] at hc
    rcases hc with (((rfl | hc) | rfl | hc) | hc) | rfl
    · exact hlayout _ (by decide)
    · exact forall_mem_quotedWith hlayout hwrite k c hc
    · exact hlayout _ (by decide)
    · exact forall_mem_compactWith hlayout hwrite v h.1 c hc
    · exact forall_mem_fieldsWith hlayout hwrite fs h.2 c hc
    · exact hlayout _ (by decide)

theorem forall_mem_itemsWith (hlayout : ∀ c, IsLayoutChar c → P c)
    (hwrite : ∀ s, ∀ c ∈ write s, P c) :
    ∀ vs : List Json, ItemsHaveWordNumbers vs → ∀ c ∈ itemsWith write vs, P c
  | [], _, _, hc => nomatch hc
  | v :: vs, h, c, hc => by
    simp only [itemsWith, List.mem_cons, List.mem_append] at hc
    rcases hc with (rfl | hc) | hc
    · exact hlayout _ (by decide)
    · exact forall_mem_compactWith hlayout hwrite v h.1 c hc
    · exact forall_mem_itemsWith hlayout hwrite vs h.2 c hc

theorem forall_mem_fieldsWith (hlayout : ∀ c, IsLayoutChar c → P c)
    (hwrite : ∀ s, ∀ c ∈ write s, P c) :
    ∀ fs : List (String × Json), FieldsHaveWordNumbers fs → ∀ c ∈ fieldsWith write fs, P c
  | [], _, _, hc => nomatch hc
  | (k, v) :: fs, h, c, hc => by
    simp only [fieldsWith, List.mem_cons, List.mem_append] at hc
    rcases hc with ((rfl | hc) | rfl | hc) | hc
    · exact hlayout _ (by decide)
    · exact forall_mem_quotedWith hlayout hwrite k c hc
    · exact hlayout _ (by decide)
    · exact forall_mem_compactWith hlayout hwrite v h.1 c hc
    · exact forall_mem_fieldsWith hlayout hwrite fs h.2 c hc

end

end

/-! ### Cutting a compact text -/

/-- Cutting a text whose first token is known. -/
theorem tokens?_cons {c : Char} {cs rest : List Char} {t : Token} (hc : isSpace c = false)
    (h : takeToken? c cs = some (t, rest)) :
    tokens? (c :: cs) = (tokens? rest).map (t :: ·) := by
  rw [tokens?, if_neg (by simp [hc])]
  split
  · next h' => simp [h] at h'
  · next h' =>
    rw [h] at h'
    cases h'
    rfl

/-- A string is cut off at its closing quote, so nothing is asked of what follows. -/
theorem tokens?_quotedWith {write : List Char → List Char} (hw : ∀ s, Writes (write s) s)
    (s : String) (rest : List Char) :
    tokens? (quotedWith write s ++ rest) = (tokens? rest).map (.string (some s) :: ·) := by
  have h := takeToken?_of_writes (hw s.toList) rest
  rw [String.ofList_toList] at h
  simp only [quotedWith, List.cons_append, List.append_assoc, List.nil_append]
  exact tokens?_cons (by decide) h

/-- A number has no closing mark, and what follows must not continue it. -/
theorem tokens?_written {w : Numeral.Written} (h : w.IsProper) {rest : List Char}
    (hr : StopsNumber rest) :
    tokens? (w.chars ++ rest) = (tokens? rest).map (.number w.numeral.value? :: ·) := by
  obtain ⟨c, cs, heq, hc, htake⟩ := h.takeToken?_chars hr
  rw [heq]
  exact tokens?_cons hc htake

/-- The text of an integer is a written number without fraction or exponent. -/
theorem tokens?_integerChars {i : Int} (h : Number.IsWord i) {rest : List Char}
    (hr : StopsNumber rest) :
    tokens? (integerChars i ++ rest) = (tokens? rest).map (.number (some (.int i)) :: ·) := by
  rw [← Numeral.Written.chars_ofInteger, tokens?_written (.ofInteger i) hr,
    Numeral.value?_ofInteger h]

/-- The text of a number is one token, with the value `g n`. -/
def Number.ReadsAs (g : Number → Number) (n : Number) : Prop :=
  ∀ rest, StopsNumber rest →
    tokens? (n.chars ++ rest) = (tokens? rest).map (.number (some (g n)) :: ·)

section

variable {write : List Char → List Char} {g : Number → Number}

/-- What stands behind the first item of an array cannot continue a number. -/
theorem stopsNumber_itemsWith (vs : List Json) (rest : List Char) :
    StopsNumber (itemsWith write vs ++ ']' :: rest) := by
  cases vs <;> exact .cons _ (by decide)

/-- What stands behind the first field of an object cannot continue a number. -/
theorem stopsNumber_fieldsWith (fs : List (String × Json)) (rest : List Char) :
    StopsNumber (fieldsWith write fs ++ '}' :: rest) := by
  cases fs <;> exact .cons _ (by decide)

mutual

/-- A compact text is cut into the tokens of its value with the numbers that are read, whatever
follows. -/
theorem tokens?_compactWith_mapNumbers (hw : ∀ s, Writes (write s) s) :
    ∀ (v : Json) {rest : List Char}, (∀ n ∈ v.numbers, n.ReadsAs g) → StopsNumber rest →
      tokens? (v.compactWith write ++ rest) = (tokens? rest).map ((v.mapNumbers g).tokens ++ ·)
  | null, rest, _, _ => tokens?_cons (by decide) rfl
  | bool true, rest, _, _ => tokens?_cons (by decide) rfl
  | bool false, rest, _, _ => tokens?_cons (by decide) rfl
  | number n, rest, h, hr => h n (List.mem_singleton.2 rfl) rest hr
  | string s, rest, _, _ => tokens?_quotedWith hw s rest
  | array [], rest, _, _ => by
    rw [compactWith, List.cons_append, tokens?_cons (by decide) rfl, List.cons_append,
      tokens?_cons (by decide) rfl, List.nil_append, Option.map_map]
    rfl
  | array (v :: vs), rest, h, _ => by
    obtain ⟨hv, hvs⟩ := List.forall_mem_append.1 h
    simp only [compactWith, List.append_assoc, List.cons_append, List.nil_append]
    rw [tokens?_cons (by decide) rfl,
      tokens?_compactWith_mapNumbers hw v hv (stopsNumber_itemsWith vs rest),
      tokens?_itemsWith hw vs hvs (by exact .cons _ (by decide)), tokens?_cons (by decide) rfl]
    cases tokens? rest <;> simp [mapNumbers, mapItems, tokens]
  | object [], rest, _, _ => by
    rw [compactWith, List.cons_append, tokens?_cons (by decide) rfl, List.cons_append,
      tokens?_cons (by decide) rfl, List.nil_append, Option.map_map]
    rfl
  | object ((k, v) :: fs), rest, h, _ => by
    obtain ⟨hv, hfs⟩ := List.forall_mem_append.1 h
    simp only [compactWith, List.append_assoc, List.cons_append, List.nil_append]
    rw [tokens?_cons (by decide) rfl, tokens?_quotedWith hw, tokens?_cons (by decide) rfl,
      tokens?_compactWith_mapNumbers hw v hv (stopsNumber_fieldsWith fs rest),
      tokens?_fieldsWith hw fs hfs (by exact .cons _ (by decide)), tokens?_cons (by decide) rfl]
    cases tokens? rest <;> simp [mapNumbers, mapFields, tokens]

theorem tokens?_itemsWith (hw : ∀ s, Writes (write s) s) :
    ∀ (vs : List Json) {rest : List Char}, (∀ n ∈ itemNumbers vs, n.ReadsAs g) →
      StopsNumber rest →
      tokens? (itemsWith write vs ++ rest) = (tokens? rest).map (itemTokens (mapItems g vs) ++ ·)
  | [], rest, _, _ => by simp [itemsWith, mapItems, itemTokens]
  | v :: vs, rest, h, hr => by
    obtain ⟨hv, hvs⟩ := List.forall_mem_append.1 h
    have hstop : StopsNumber (itemsWith write vs ++ rest) := by
      cases vs with
      | nil => exact hr
      | cons w vs => exact .cons _ (by decide)
    simp only [itemsWith, List.append_assoc, List.cons_append]
    rw [tokens?_cons (by decide) rfl, tokens?_compactWith_mapNumbers hw v hv hstop,
      tokens?_itemsWith hw vs hvs hr]
    cases tokens? rest <;> simp [mapItems, itemTokens]

theorem tokens?_fieldsWith (hw : ∀ s, Writes (write s) s) :
    ∀ (fs : List (String × Json)) {rest : List Char}, (∀ n ∈ fieldNumbers fs, n.ReadsAs g) →
      StopsNumber rest →
      tokens? (fieldsWith write fs ++ rest)
        = (tokens? rest).map (fieldTokens (mapFields g fs) ++ ·)
  | [], rest, _, _ => by simp [fieldsWith, mapFields, fieldTokens]
  | (k, v) :: fs, rest, h, hr => by
    obtain ⟨hv, hfs⟩ := List.forall_mem_append.1 h
    have hstop : StopsNumber (fieldsWith write fs ++ rest) := by
      cases fs with
      | nil => exact hr
      | cons f fs => exact .cons _ (by decide)
    simp only [fieldsWith, List.append_assoc, List.cons_append]
    rw [tokens?_cons (by decide) rfl, tokens?_quotedWith hw, tokens?_cons (by decide) rfl,
      tokens?_compactWith_mapNumbers hw v hv hstop, tokens?_fieldsWith hw fs hfs hr]
    cases tokens? rest <;> simp [mapFields, fieldTokens]

end

/-- Integers of a word are read as themselves. -/
theorem readsAs_id {v : Json} (h : v.HasWordNumbers) : ∀ n ∈ v.numbers, n.ReadsAs id := by
  intro n hn rest hr
  obtain ⟨i, rfl, hi⟩ := isWord_of_mem_numbers v h n hn
  exact tokens?_integerChars hi hr

/-- A compact text is cut into the tokens of its value, whatever follows. -/
theorem tokens?_compactWith (hw : ∀ s, Writes (write s) s) (v : Json) {rest : List Char}
    (h : v.HasWordNumbers) (hr : StopsNumber rest) :
    tokens? (v.compactWith write ++ rest) = (tokens? rest).map (v.tokens ++ ·) := by
  rw [tokens?_compactWith_mapNumbers hw v (readsAs_id h) hr, mapNumbers_id]

end

end PostBlocks.Json
