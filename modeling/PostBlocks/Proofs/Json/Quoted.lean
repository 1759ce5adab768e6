import PostBlocks.Json.Printer
import PostBlocks.Json.Token

/-!
# Written strings read back

A string is written character by character, and reading takes one character back from each written
form, whatever follows it (`writes_stringChar`). A written form is nothing more than that:
`Writes` says it of a way to write characters, so that what is proved of a string does not depend on
which characters are escaped and how.
-/

namespace PostBlocks.Json

/-- The text `cs` stands for the characters `s` inside of a string. -/
def Writes (cs s : List Char) : Prop :=
  ∀ rest, takePieces? (cs ++ rest) =
    (takePieces? rest).map fun (ps, after) ↦ (s.map Piece.char ++ ps, after)

namespace Writes

theorem nil : Writes [] [] := by
  intro rest
  simp

/-- Characters are written apart from each other, so writings may be put together. -/
theorem append {cs ds s t : List Char} (h : Writes cs s) (h' : Writes ds t) :
    Writes (cs ++ ds) (s ++ t) := by
  intro rest
  rw [List.append_assoc, h, h', Option.map_map]
  congr 1
  funext x
  simp

/-- A character that needs no escape stands for itself. -/
theorem self {c : Char} (hquote : c ≠ '"') (hslash : c ≠ '\\') (hc : 0x20 ≤ c.toNat) :
    Writes [c] [c] := by
  intro rest
  rw [List.singleton_append, takePieces?.eq_def]
  split
  · next h => exact absurd (List.cons.inj h).1 hquote
  · next h => exact absurd (List.cons.inj h).1 hslash
  · next h => exact absurd (List.cons.inj h).1 hslash
  · next h =>
    obtain ⟨rfl, rfl⟩ := List.cons.inj h
    rw [if_neg (by omega)]
    rfl
  · next h => cases h

/-- A backslash and a letter stand for what the letter says. -/
theorem escape {e c : Char} (he : e ≠ 'u') (h : escaped? e = some c) : Writes ['\\', e] [c] := by
  intro rest
  rw [List.cons_append, List.singleton_append, takePieces?.eq_def]
  split
  · next h => simp at h
  · next h => simp [he] at h
  · next h' =>
    simp only [List.cons.injEq, true_and] at h'
    obtain ⟨rfl, rfl⟩ := h'
    cases takePieces? rest <;> simp [h]
  · next hu hne h' =>
    obtain ⟨rfl, rfl⟩ := List.cons.inj h'
    exact absurd rfl (hne e rest rfl)
  · next h => cases h

/-- Four hexadecimal digits stand for the character with that code unit. -/
theorem unicode {a b c d : Char} {n : Nat} (h : unit? a b c d = some n) (hn : n < 0xD800) :
    Writes ['\\', 'u', a, b, c, d] [Char.ofNat n] := by
  intro rest
  have hpiece : Piece.ofUnit n = .char (Char.ofNat n) := by
    rw [Piece.ofUnit, if_neg (by omega), if_neg (by omega)]
  cases ht : takePieces? rest <;> simp [takePieces?, h, ht, hpiece]

end Writes

theorem hexValue?_hexDigit {n : Nat} (h : n < 16) : hexValue? (hexDigit n) = some n := by
  have hall : ∀ m < 16, hexValue? (hexDigit m) = some m := by decide
  exact hall n h

/-- A character is read from its written form. -/
theorem writes_stringChar (c : Char) : Writes (stringChar c) [c] := by
  unfold stringChar
  -- seven characters are escaped with a letter of their own
  iterate 7
    split
    · next h =>
      subst h
      exact .escape (by decide) rfl
  split
  · next h =>
    have hunit : unit? '0' '0' (hexDigit (c.toNat / 16)) (hexDigit (c.toNat % 16))
        = some c.toNat := by
      have hzero : hexValue? '0' = some 0 := by decide
      simp only [unit?, hzero, hexValue?_hexDigit (show c.toNat / 16 < 16 by omega),
        hexValue?_hexDigit (Nat.mod_lt c.toNat (show 16 > 0 by omega)), Option.bind_eq_bind,
        Option.bind_some, pure, Option.some.injEq]
      omega
    simpa using Writes.unicode hunit (by omega)
  · next hquote hslash _ _ _ _ _ hc => exact .self hquote hslash (by omega)

/-- A string is read from the written forms of its characters. -/
theorem writes_flatMap_stringChar (s : List Char) : Writes (s.flatMap stringChar) s := by
  induction s with
  | nil => exact .nil
  | cons c s ih => exact .append (writes_stringChar c) ih

/-- A written form starts with a backslash or is the character itself. -/
theorem stringChar_eq_cons (c : Char) : ∃ d cs, stringChar c = d :: cs ∧ (d = '\\' ∨ d = c) := by
  unfold stringChar
  iterate 8
    split
    · exact ⟨_, _, rfl, .inl rfl⟩
  exact ⟨c, [], rfl, .inr rfl⟩

/-- Besides the character itself, a written form has backslashes, letters and digits. -/
theorem mem_stringChar {c d : Char} (h : d ∈ stringChar c) :
    d = c ∨ d = '\\' ∨ d.isAlphanum = true := by
  unfold stringChar at h
  iterate 7
    split at h
    · next hc =>
      subst hc
      simp only [List.mem_cons, List.not_mem_nil, or_false] at h
      rcases h with rfl | rfl <;> decide
  split at h
  · have hhex : ∀ m < 16, (hexDigit m).isAlphanum = true := by decide
    simp only [List.mem_cons, List.not_mem_nil, or_false] at h
    rcases h with rfl | rfl | rfl | rfl | rfl | rfl
    · exact .inr (.inl rfl)
    · exact .inr (.inr rfl)
    · exact .inr (.inr rfl)
    · exact .inr (.inr rfl)
    · exact .inr (.inr (hhex _ (by omega)))
    · exact .inr (.inr (hhex _ (by omega)))
  · exact .inl (List.mem_singleton.1 h)

theorem joinPieces?_map_char (s : List Char) : joinPieces? (s.map Piece.char) = some s := by
  induction s with
  | nil => rfl
  | cons c s ih => simp [joinPieces?, ih]

/-- Characters in quotes are one token. -/
theorem takeToken?_of_writes {cs s : List Char} (h : Writes cs s) (rest : List Char) :
    takeToken? '"' (cs ++ '"' :: rest) = some (.string (some (.ofList s)), rest) := by
  simp [takeToken?, h ('"' :: rest), takePieces?, joinPieces?_map_char]

end PostBlocks.Json
