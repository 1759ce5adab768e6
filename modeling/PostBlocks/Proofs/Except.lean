/-!
# Steps that can fail

What a sequence of steps that can fail gives, said step by step: it gives a result exactly when each
of its steps does, and an error when the first step does or a later one behind it.
-/

namespace PostBlocks.Except

variable {α β ε : Type} {x : Except ε α} {f : α → Except ε β} {b : β} {e : ε}

/-- A sequence of steps is peeled off from the front with this: the first step has a result, and the
others succeed on it. -/
theorem bind_eq_ok_iff : x >>= f = .ok b ↔ ∃ a, x = .ok a ∧ f a = .ok b := by
  constructor
  · intro h
    cases x with
    | error _ => cases h
    | ok a => exact ⟨a, rfl, h⟩
  · rintro ⟨a, rfl, h⟩
    exact h

/-- The error of a sequence is that of its first step, or of the others where the first one
succeeds. -/
theorem bind_eq_error_iff :
    x >>= f = .error e ↔ x = .error e ∨ ∃ a, x = .ok a ∧ f a = .error e := by
  constructor
  · intro h
    cases x with
    | error _ =>
      cases h
      exact .inl rfl
    | ok a => exact .inr ⟨a, rfl, h⟩
  · rintro (rfl | ⟨a, rfl, h⟩)
    · rfl
    · exact h

theorem map_eq_ok_iff {g : α → β} : x.map g = .ok b ↔ ∃ a, x = .ok a ∧ g a = b := by
  cases x <;> simp [Except.map]

theorem map_eq_error_iff {g : α → β} : x.map g = .error e ↔ x = .error e := by
  cases x <;> simp [Except.map]

theorem toOption_eq_some_iff {a : α} : x.toOption = some a ↔ x = .ok a := by
  cases x <;> simp [Except.toOption]

/-- Forgetting which error there is goes step by step, too. -/
theorem toOption_bind : (x >>= f).toOption = x.toOption.bind fun a ↦ (f a).toOption := by
  cases x <;> rfl

/-! ### Passes over a list -/

section

variable {step : Nat → α → Except ε β} {pass : Nat → List α → Except ε (List β)}
  (hcons : ∀ i a as, pass i (a :: as) = do return (← step i a) :: (← pass (i + 1) as))
include hcons

/-- A pass over a list fails at the first item at which its step fails. -/
theorem pass_eq_error {i j : Nat} {as : List α} {a : α} (ha : as[j]? = some a)
    (h : step (i + j) a = .error e)
    (hbefore : ∀ k < j, ∀ c, as[k]? = some c → ∃ b, step (i + k) c = .ok b) :
    pass i as = .error e := by
  induction as generalizing i j with
  | nil => cases ha
  | cons c as ih =>
    rw [hcons]
    cases j with
    | zero =>
      cases ha
      exact bind_eq_error_iff.2 (.inl h)
    | succ j =>
      obtain ⟨b, hb⟩ := hbefore 0 (by omega) c rfl
      have hrest : pass (i + 1) as = .error e := by
        refine ih (i := i + 1) (j := j) ha (by rwa [Nat.add_right_comm]) fun k hk c hc ↦ ?_
        rw [Nat.add_right_comm]
        exact hbefore (k + 1) (by omega) c hc
      exact bind_eq_error_iff.2 (.inr ⟨b, hb, bind_eq_error_iff.2 (.inl hrest)⟩)

/-- A pass over a list gives a result if its step never fails. -/
theorem exists_pass_eq_ok (hnil : ∀ i, pass i [] = .ok []) {i : Nat} {as : List α}
    (h : ∀ j a, as[j]? = some a → ∃ b, step (i + j) a = .ok b) : ∃ bs, pass i as = .ok bs := by
  induction as generalizing i with
  | nil => exact ⟨[], hnil i⟩
  | cons a as ih =>
    obtain ⟨b, hb⟩ := h 0 a rfl
    obtain ⟨bs, hbs⟩ := ih (i := i + 1) fun j a ha ↦ by
      rw [Nat.add_right_comm]
      exact h (j + 1) a ha
    refine ⟨b :: bs, ?_⟩
    rw [hcons, show step i a = .ok b from hb, hbs]
    rfl

/-- The result of a pass over a list has what its step gives for each item, in order. -/
theorem step_of_pass_eq_ok (hnil : ∀ i, pass i [] = .ok []) {i : Nat} {as : List α}
    {bs : List β} (h : pass i as = .ok bs) (j : Nat) :
    as[j]?.map (step (i + j)) = bs[j]?.map .ok := by
  induction as generalizing i j bs with
  | nil =>
    rw [hnil] at h
    obtain rfl := Except.ok.inj h
    rfl
  | cons a as ih =>
    rw [hcons, bind_eq_ok_iff] at h
    obtain ⟨b, hb, h⟩ := h
    obtain ⟨rest, hrest, h⟩ := bind_eq_ok_iff.1 h
    obtain rfl := Except.ok.inj h
    match j with
    | 0 => exact congrArg some hb
    | j + 1 =>
      rw [show i + (j + 1) = i + 1 + j by omega]
      exact ih hrest j

end

end PostBlocks.Except
