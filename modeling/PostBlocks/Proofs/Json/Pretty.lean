import PostBlocks.Proofs.Json.Tree

/-!
# Pretty texts and their tokens

The pretty layout differs from the compact one in blanks between the tokens, which the cutting of a
text skips. So the pretty text of a value is cut into the tokens of the value
(`tokens?_prettyChars`), and reading it gives the value's tree (`parse?_pretty`).
-/

namespace PostBlocks.Json

theorem tokens?_space {c : Char} (hc : isSpace c = true) (cs : List Char) :
    tokens? (c :: cs) = tokens? cs := by
  rw [tokens?, if_pos hc]

/-- A line break and its indentation are blanks, however deep. -/
theorem tokens?_newLine (level : Nat) (rest : List Char) :
    tokens? (newLine level ++ rest) = tokens? rest := by
  rw [newLine, List.cons_append, tokens?_space (by decide)]
  induction 2 * level with
  | zero => rfl
  | succ n ih => rw [List.replicate_succ, List.cons_append, tokens?_space (by decide), ih]

/-- The pretty layout writes strings as the compact one does. -/
theorem tokens?_quotedChars (s : String) (rest : List Char) :
    tokens? (quotedChars s ++ rest) = (tokens? rest).map (.string (some s) :: ·) :=
  tokens?_quotedWith writes_flatMap_stringChar s rest

/-- The start of a line cannot continue a number. -/
theorem stopsNumber_newLine (level : Nat) (rest : List Char) :
    StopsNumber (newLine level ++ rest) :=
  .cons _ (by decide)

/-- What comes behind an item cannot continue a number: a comma, or what comes behind the array's
items. -/
theorem stopsNumber_prettyItems (level : Nat) (vs : List Json) {rest : List Char}
    (hr : StopsNumber rest) : StopsNumber (prettyItems level vs ++ rest) := by
  cases vs with
  | nil => exact hr
  | cons v vs => exact .cons _ (by decide)

theorem stopsNumber_prettyFields (level : Nat) (fs : List (String × Json)) {rest : List Char}
    (hr : StopsNumber rest) : StopsNumber (prettyFields level fs ++ rest) := by
  cases fs with
  | nil => exact hr
  | cons f fs => exact .cons _ (by decide)

mutual

/-- A pretty text is cut into the tokens of its value, whatever follows. -/
theorem tokens?_prettyChars : ∀ (level : Nat) (v : Json) {rest : List Char},
    v.HasWordNumbers → StopsNumber rest →
      tokens? (v.prettyChars level ++ rest) = (tokens? rest).map (v.tokens ++ ·)
  | _, null, rest, _, _ => tokens?_cons (by decide) rfl
  | _, bool true, rest, _, _ => tokens?_cons (by decide) rfl
  | _, bool false, rest, _, _ => tokens?_cons (by decide) rfl
  | _, number (.int i), rest, h, hr => tokens?_integerChars h hr
  | _, string s, rest, _, _ => tokens?_quotedChars s rest
  | _, array [], rest, _, _ => by
    rw [prettyChars, List.cons_append, tokens?_cons (by decide) rfl, List.cons_append,
      tokens?_cons (by decide) rfl, List.nil_append, Option.map_map]
    rfl
  | level, array (v :: vs), rest, h, _ => by
    obtain ⟨hv, hvs⟩ := h
    have hclose := stopsNumber_newLine level (']' :: rest)
    simp only [prettyChars, List.append_assoc, List.cons_append, List.nil_append]
    rw [tokens?_cons (by decide) rfl, tokens?_newLine,
      tokens?_prettyChars _ v hv (stopsNumber_prettyItems _ vs hclose),
      tokens?_prettyItems _ vs hvs hclose, tokens?_newLine, tokens?_cons (by decide) rfl]
    cases tokens? rest <;> simp [tokens]
  | _, object [], rest, _, _ => by
    rw [prettyChars, List.cons_append, tokens?_cons (by decide) rfl, List.cons_append,
      tokens?_cons (by decide) rfl, List.nil_append, Option.map_map]
    rfl
  | level, object ((k, v) :: fs), rest, h, _ => by
    obtain ⟨hv, hfs⟩ := h
    have hclose := stopsNumber_newLine level ('}' :: rest)
    simp only [prettyChars, List.append_assoc, List.cons_append, List.nil_append]
    rw [tokens?_cons (by decide) rfl, tokens?_newLine, tokens?_quotedChars,
      tokens?_cons (by decide) rfl, tokens?_space (by decide),
      tokens?_prettyChars _ v hv (stopsNumber_prettyFields _ fs hclose),
      tokens?_prettyFields _ fs hfs hclose, tokens?_newLine, tokens?_cons (by decide) rfl]
    cases tokens? rest <;> simp [tokens]

/-- The items behind the first, each with a comma and a line break in front. -/
theorem tokens?_prettyItems : ∀ (level : Nat) (vs : List Json) {rest : List Char},
    ItemsHaveWordNumbers vs → StopsNumber rest →
      tokens? (prettyItems level vs ++ rest) = (tokens? rest).map (itemTokens vs ++ ·)
  | _, [], rest, _, _ => by simp [prettyItems, itemTokens]
  | level, v :: vs, rest, h, hr => by
    obtain ⟨hv, hvs⟩ := h
    simp only [prettyItems, List.append_assoc, List.cons_append]
    rw [tokens?_cons (by decide) rfl, tokens?_newLine,
      tokens?_prettyChars _ v hv (stopsNumber_prettyItems _ vs hr), tokens?_prettyItems _ vs hvs hr]
    cases tokens? rest <;> simp [itemTokens]

theorem tokens?_prettyFields : ∀ (level : Nat) (fs : List (String × Json)) {rest : List Char},
    FieldsHaveWordNumbers fs → StopsNumber rest →
      tokens? (prettyFields level fs ++ rest) = (tokens? rest).map (fieldTokens fs ++ ·)
  | _, [], rest, _, _ => by simp [prettyFields, fieldTokens]
  | level, (k, v) :: fs, rest, h, hr => by
    obtain ⟨hv, hfs⟩ := h
    simp only [prettyFields, List.append_assoc, List.cons_append]
    rw [tokens?_cons (by decide) rfl, tokens?_newLine, tokens?_quotedChars,
      tokens?_cons (by decide) rfl, tokens?_space (by decide),
      tokens?_prettyChars _ v hv (stopsNumber_prettyFields _ fs hr),
      tokens?_prettyFields _ fs hfs hr]
    cases tokens? rest <;> simp [fieldTokens]

end

/-- A pretty text reads as the tree of its value. -/
theorem parse?_pretty {v : Json} (hwords : v.HasWordNumbers) (hd : v.depth ≤ maxDepth) :
    Node.parse? v.pretty = some v.toNode := by
  rw [Node.parse?, pretty, String.toList_ofList]
  refine ofChars?_eq_toNode ?_ hd
  have h : tokens? (v.prettyChars 0 ++ []) = _ :=
    tokens?_prettyChars 0 v hwords fun _ hc ↦ nomatch hc
  rw [List.append_nil] at h
  rw [h, tokens?, Option.map_some, List.append_nil]

end PostBlocks.Json
