import PostBlocks.Proofs.Json.Tree

/-!
# What a text can have as its value

A value that is read meets the two conditions under which its tokens can be read again: no object
in it repeats a key (`wellFormed_of_value?`), and its containers nest within the room
(`depth_le_of_ofChars?`). The first holds of the value of any tree. The second is an invariant of
the machine that builds the tree: a container in `k` others that has a value leaves room for what it
nests (`Node.Fits`), and so does everything that waits on the stack.
-/

namespace PostBlocks.Json

/-! ### No repeated keys -/

/-- The recursion over the fields comes to one condition on each of them, so it passes to some of
them. -/
theorem wellFormedFields_iff {fs : List (String × Json)} :
    WellFormedFields fs ↔ ∀ f ∈ fs, f.2.WellFormed := by
  induction fs with
  | nil => simp [WellFormedFields]
  | cons f fs ih => simp [WellFormedFields, ih]

mutual

/-- The value of a tree repeats no key. -/
theorem wellFormed_of_value? : ∀ (v : Node) {j : Json}, v.value? = some j → j.WellFormed
  | .null, _, h | .bool _, _, h | .number _, _, h | .string _, _, h => by
    cases h
    trivial
  | .array items, j, h => by
    rw [Node.value?, Option.map_eq_some_iff] at h
    obtain ⟨vs, hvs, rfl⟩ := h
    exact wellFormed_of_values? items hvs
  | .object members, j, h => by
    rw [Node.value?, Option.map_eq_some_iff] at h
    obtain ⟨es, hes, rfl⟩ := h
    refine ⟨Fields.nodup_keys_ofList es, wellFormedFields_iff.2 fun f hf ↦ ?_⟩
    exact wellFormedFields_iff.1 (wellFormed_of_entries? members hes) f
      (Fields.mem_of_mem_ofList hf)
  | .unusable, _, h => by cases h

theorem wellFormed_of_values? : ∀ (vs : List Node) {js : List Json},
    Node.values? vs = some js → WellFormedItems js
  | [], _, h => by
    cases h
    trivial
  | v :: vs, js, h => by
    simp only [Node.values?, Option.bind_eq_bind, Option.bind_eq_some_iff, pure,
      Option.some.injEq] at h
    obtain ⟨j, hj, js, hjs, rfl⟩ := h
    exact ⟨wellFormed_of_value? v hj, wellFormed_of_values? vs hjs⟩

/-- The entries of an object; here a key may still be repeated. -/
theorem wellFormed_of_entries? : ∀ (ms : List (Option String × Node)) {es : List (String × Json)},
    Node.entries? ms = some es → WellFormedFields es
  | [], _, h => by
    cases h
    trivial
  | (none, _) :: _, _, h => by cases h
  | (some k, v) :: ms, es, h => by
    simp only [Node.entries?, Option.bind_eq_bind, Option.bind_eq_some_iff, pure,
      Option.some.injEq] at h
    obtain ⟨j, hj, es, hes, rfl⟩ := h
    exact ⟨wellFormed_of_value? v hj, wellFormed_of_entries? ms hes⟩

end

/-! ### Room for what is nested -/

/-- In this form a bound on the depth passes to some of the fields. -/
theorem fieldsDepth_le_iff {fs : List (String × Json)} {n : Nat} :
    fieldsDepth fs ≤ n ↔ ∀ f ∈ fs, f.2.depth ≤ n := by
  induction fs with
  | nil => simp [fieldsDepth]
  | cons f fs ih => rw [fieldsDepth, Nat.max_le, ih, List.forall_mem_cons]

theorem fieldsHaveWordNumbers_iff {fs : List (String × Json)} :
    FieldsHaveWordNumbers fs ↔ ∀ f ∈ fs, f.2.HasWordNumbers := by
  induction fs with
  | nil => simp [FieldsHaveWordNumbers]
  | cons f fs ih => rw [FieldsHaveWordNumbers, ih, List.forall_mem_cons]

/-- There is room inside `k` containers for what a tree nests, if the tree has a value. -/
def Node.Fits (room k : Nat) (v : Node) : Prop :=
  ∀ j, v.value? = some j → j.depth = 0 ∨ k + j.depth ≤ room

/-- There is room for what waits in a container, `k` of them with the container itself. -/
def Frame.Fits (room k : Nat) : Frame → Prop
  | .array items => ∀ v ∈ items, v.Fits room k
  | .object members _ => ∀ m ∈ members, m.2.Fits room k

/-- There is room for what waits on a stack. -/
def StackFits (room : Nat) : List Frame → Prop
  | [] => True
  | f :: stack => f.Fits room (stack.length + 1) ∧ StackFits room stack

/-- There is room for what a phase holds inside `k` open containers. -/
def Phase.Fits (room k : Nat) : Phase → Prop
  | .value | .item | .member => True
  | .key members | .colon members _ => ∀ m ∈ members, m.2.Fits room (k + 1)
  | .after v => v.Fits room k

/-- Where each of the trees that wait fits, their values fit together: the depth is that of one of
them. -/
theorem depth_le_of_values? {room k : Nat} : ∀ {vs : List Node} {js : List Json},
    (∀ v ∈ vs, v.Fits room k) → Node.values? vs = some js →
      itemsDepth js = 0 ∨ k + itemsDepth js ≤ room
  | [], _, _, h => by
    cases h
    exact .inl rfl
  | v :: vs, js, hfit, h => by
    simp only [Node.values?, Option.bind_eq_bind, Option.bind_eq_some_iff, pure,
      Option.some.injEq] at h
    obtain ⟨j, hj, js, hjs, rfl⟩ := h
    have hhead := hfit v List.mem_cons_self j hj
    have htail := depth_le_of_values? (fun w hw ↦ hfit w (List.mem_cons_of_mem _ hw)) hjs
    simp only [itemsDepth]
    omega

theorem depth_le_of_entries? {room k : Nat} :
    ∀ {ms : List (Option String × Node)} {es : List (String × Json)},
    (∀ m ∈ ms, m.2.Fits room k) → Node.entries? ms = some es →
      fieldsDepth es = 0 ∨ k + fieldsDepth es ≤ room
  | [], _, _, h => by
    cases h
    exact .inl rfl
  | (none, _) :: _, _, _, h => by cases h
  | (some key, v) :: ms, es, hfit, h => by
    simp only [Node.entries?, Option.bind_eq_bind, Option.bind_eq_some_iff, pure,
      Option.some.injEq] at h
    obtain ⟨j, hj, es, hes, rfl⟩ := h
    have hhead := hfit _ List.mem_cons_self j hj
    have htail := depth_le_of_entries? (fun w hw ↦ hfit w (List.mem_cons_of_mem _ hw)) hes
    simp only [fieldsDepth]
    omega

/-- A container closes with a value only where there is room for it. -/
theorem fits_close {room : Nat} {stack : List Frame} {v : Node}
    (h : ∀ j, v.value? = some j → j.depth ≤ 1 ∨ stack.length + j.depth ≤ room) :
    (Node.close room stack v).Fits room stack.length := by
  unfold Node.close
  split
  · next hlt =>
    intro j hj
    have := h j hj
    omega
  · exact fun j hj ↦ nomatch hj

/-- An array that closes has its items inside one container more than it is in itself. -/
theorem fits_close_array {room : Nat} {stack : List Frame} {items : List Node}
    (h : ∀ v ∈ items, v.Fits room (stack.length + 1)) :
    (Node.close room stack (.array items)).Fits room stack.length := by
  refine fits_close fun j hj ↦ ?_
  rw [Node.value?, Option.map_eq_some_iff] at hj
  obtain ⟨vs, hvs, rfl⟩ := hj
  have := depth_le_of_values? h hvs
  simp only [depth]
  omega

theorem fits_close_object {room : Nat} {stack : List Frame} {members : List (Option String × Node)}
    (h : ∀ m ∈ members, m.2.Fits room (stack.length + 1)) :
    (Node.close room stack (.object members)).Fits room stack.length := by
  refine fits_close fun j hj ↦ ?_
  rw [Node.value?, Option.map_eq_some_iff] at hj
  obtain ⟨es, hes, rfl⟩ := hj
  have hes := depth_le_of_entries? h hes
  -- an object keeps some of its entries only
  have hle : fieldsDepth (Fields.ofList es) ≤ fieldsDepth es :=
    fieldsDepth_le_iff.2 fun f hf ↦ fieldsDepth_le_iff.1 (Nat.le_refl _) f
      (Fields.mem_of_mem_ofList hf)
  simp only [depth]
  omega

/-- A token that starts a value is a scalar, which needs no room, or opens a container, which so far
holds nothing. -/
theorem fits_start? {room k : Nat} {t : Token} {p : Phase} (h : t.start? = some p) :
    p.Fits room k := by
  unfold Token.start? at h
  split at h <;> cases h
  case h_3 n => cases n <;> intro j hj <;> cases hj; exact .inl rfl
  case h_4 s => cases s <;> intro j hj <;> cases hj; exact .inl rfl
  all_goals first | trivial | (intro j hj; cases hj; exact .inl rfl)

/-- One token keeps the room. -/
theorem fits_step? {room : Nat} {t : Token} {p q : Phase} {stack stack' : List Frame}
    (h : p.step? room t stack = some (q, stack')) (hp : p.Fits room stack.length)
    (hs : StackFits room stack) : q.Fits room stack'.length ∧ StackFits room stack' := by
  have hnil : ∀ k, Frame.Fits room k (.array []) := fun k v hv ↦ nomatch hv
  unfold Phase.step? at h
  -- one case for each phase, in the order of the machine's rows
  split at h
  case h_1 =>
    obtain ⟨_, ht, h⟩ := Option.map_eq_some_iff.1 h
    cases h
    exact ⟨fits_start? ht, hs⟩
  case h_2 =>
    split at h
    · cases h
      exact ⟨fits_close_array (fun v hv ↦ nomatch hv), hs⟩
    · obtain ⟨_, ht, h⟩ := Option.map_eq_some_iff.1 h
      cases h
      exact ⟨fits_start? ht, hnil _, hs⟩
  case h_3 =>
    split at h <;> cases h
    · exact ⟨fits_close_object (fun v hv ↦ nomatch hv), hs⟩
    · exact ⟨(fun v hv ↦ nomatch hv), hs⟩
  case h_4 =>
    split at h <;> cases h
    exact ⟨hp, hs⟩
  case h_5 =>
    split at h <;> cases h
    exact ⟨trivial, hp, hs⟩
  case h_6 v items stack =>
    -- the value that is read goes to the items that wait
    have hitems : ∀ w ∈ v :: items, w.Fits room (stack.length + 1) :=
      List.forall_mem_cons.2 ⟨hp, hs.1⟩
    split at h <;> cases h
    · exact ⟨trivial, hitems, hs.2⟩
    · exact ⟨fits_close_array fun w hw ↦ hitems w (List.mem_reverse.1 hw), hs.2⟩
  case h_7 v members key stack =>
    have hmembers : ∀ m ∈ (key, v) :: members, m.2.Fits room (stack.length + 1) :=
      List.forall_mem_cons.2 ⟨hp, hs.1⟩
    split at h <;> cases h
    · exact ⟨hmembers, hs.2⟩
    · exact ⟨fits_close_object fun w hw ↦ hmembers w (List.mem_reverse.1 hw), hs.2⟩
  case h_8 => cases h

/-- A whole run of tokens keeps the room. -/
theorem fits_build? {room : Nat} {ts : List Token} {v : Node} : ∀ {p : Phase} {stack : List Frame},
    Node.build? room p stack ts = some v → p.Fits room stack.length → StackFits room stack →
      v.Fits room 0 := by
  induction ts with
  | nil =>
    intro p stack h hp _
    unfold Node.build? at h
    split at h
    · cases h
      exact hp
    · cases h
    · next h' _ => cases h'
  | cons t ts ih =>
    intro p stack h hp hs
    rw [Node.build?] at h
    split at h
    · next hstep =>
      obtain ⟨hp', hs'⟩ := fits_step? hstep hp hs
      exact ih h hp' hs'
    · cases h

/-- The value of a text nests within the room. -/
theorem depth_le_of_ofChars? {room : Nat} {cs : List Char} {j : Json}
    (h : (Node.ofChars? room cs).bind Node.value? = some j) : j.depth ≤ room := by
  obtain ⟨v, hv, hj⟩ := Option.bind_eq_some_iff.1 h
  obtain ⟨ts, -, hts⟩ := Option.bind_eq_some_iff.1 hv
  have := fits_build? hts trivial trivial j hj
  omega

/-- Fields that are read repeat no key and nest no deeper than any text may. -/
theorem wellFormed_of_parse? {cs : List Char} {fs : Fields} (h : Fields.parse? cs = some fs) :
    (object fs).WellFormed ∧ (object fs).depth ≤ maxDepth := by
  unfold Fields.parse? at h
  split at h
  · next hv =>
    cases h
    obtain ⟨v, -, hj⟩ := Option.bind_eq_some_iff.1 hv
    exact ⟨wellFormed_of_value? v hj, depth_le_of_ofChars? hv⟩
  · cases h

end PostBlocks.Json
