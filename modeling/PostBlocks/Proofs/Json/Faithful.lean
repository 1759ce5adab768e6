import PostBlocks.Proofs.Json.Presents

/-!
# Faithful readers

A reader is *faithful* if what it reads from a tree it also reads from a value that the tree
presents. Readers of scalars are. The members of a record present the fields of the value
(`Presents.fields?`), so a reader of records is faithful when it reads its fields faithfully
(`faithful_fields?`), and lists and fields that may be missing are read faithfully when their items
are. A reader of which only a part of the result counts is taken with the map that forgets the rest
(`optional?_map`, `listOf?_map`).
-/

namespace PostBlocks.Json.Node

variable {α β : Type} {read : Node → Option α}

/-! ### Members of an object -/

/-- Where at most one entry passes a test, the search finds the one that does. -/
theorem find?_of_countP_le_one {p : α → Bool} {as : List α} {a : α} (hcount : as.countP p ≤ 1)
    (hmem : a ∈ as) (ha : p a) : as.find? p = some a := by
  induction as with
  | nil => cases hmem
  | cons b as ih =>
    by_cases hb : p b
    · rw [List.countP_cons_of_pos hb] at hcount
      have hrest : ∀ c ∈ as, ¬p c := List.countP_eq_zero.1 (by omega)
      rcases List.mem_cons.1 hmem with rfl | hmem
      · exact List.find?_cons_of_pos hb
      · exact absurd ha (hrest a hmem)
    · rw [List.countP_cons_of_neg hb] at hcount
      rcases List.mem_cons.1 hmem with rfl | hmem
      · exact absurd ha hb
      · rw [List.find?_cons_of_neg hb, ih hcount hmem]

theorem mem_of_get? {k : String} {fs : Fields} {v : Json} (h : Fields.get? k fs = some v) :
    (k, v) ∈ fs := by
  fun_induction Fields.get? k fs with
  | case1 => cases h
  | case2 v fs =>
    cases h
    exact List.mem_cons_self
  | case3 l v fs hl ih => exact List.mem_cons_of_mem _ (ih h)

theorem isSome_get?_of_mem {k : String} {fs : Fields} (h : k ∈ fs.map Prod.fst) :
    (Fields.get? k fs).isSome := by
  fun_induction Fields.get? k fs with
  | case1 => cases h
  | case2 v fs => rfl
  | case3 l v fs hl ih => exact ih ((List.mem_cons.1 h).resolve_left (Ne.symm hl))

/-- Under a key that comes once, the member presents the field. -/
theorem rel_find? {ms : List (Option String × Node)} {fs : List (String × Json)} {k : String}
    (hkeys : KeysAgree ms fs) (hfields : PresentFields ms fs)
    (hcount : ms.countP (·.1 == some k) ≤ 1) :
    Option.Rel Presents ((ms.find? (·.1 == some k)).map Prod.snd) (Fields.get? k fs) := by
  cases hget : Fields.get? k fs with
  | none =>
    have hfind : ms.find? (·.1 == some k) = none := by
      refine List.find?_eq_none.2 fun m hm hk ↦ ?_
      obtain ⟨l, hl, hml⟩ := hkeys.exists_field m.1 (List.mem_map_of_mem hm)
      obtain rfl : l = k := Option.some.inj (hml ▸ eq_of_beq hk)
      have hsome := isSome_get?_of_mem hl
      rw [hget] at hsome
      cases hsome
    rw [hfind]
    exact .none
  | some v =>
    obtain ⟨w, hw, hpresents⟩ := presentFields_iff.1 hfields _ (mem_of_get? hget)
    rw [find?_of_countP_le_one hcount hw (beq_self_eq_true _)]
    exact .some hpresents

/-- The member under a key of a value's tree is the tree of the field. -/
theorem find?_fieldNodes (k : String) (fs : List (String × Json)) :
    ((fieldNodes fs).find? (·.1 == some k)).map Prod.snd = (Fields.get? k fs).map toNode := by
  fun_induction Fields.get? k fs with
  | case1 => rfl
  | case2 v fs =>
    rw [fieldNodes, List.find?_cons_of_pos (by simp)]
    rfl
  | case3 l v fs hl ih =>
    rw [fieldNodes, List.find?_cons_of_neg (by simpa using hl), ih]

/-- In this form a reader of lists is followed item by item. -/
theorem itemNodes_eq_map (vs : List Json) : itemNodes vs = vs.map toNode := by
  induction vs with
  | nil => rfl
  | cons v vs ih => rw [itemNodes, ih, List.map_cons]

/-- A value's own tree has no key that cannot be read. -/
theorem isSome_of_mem_fieldNodes {fs : List (String × Json)} {m : Option String × Node}
    (h : m ∈ fieldNodes fs) : m.1.isSome := by
  have hkey := List.mem_map_of_mem (f := Prod.fst) h
  rw [keys_fieldNodes] at hkey
  obtain ⟨k, -, hk⟩ := List.mem_map.1 hkey
  rw [← hk, Option.isSome_some]

/-- A key that comes once in an object comes once in the tree of the value. -/
theorem countP_fieldNodes_le {ms : List (Option String × Node)} {fs : List (String × Json)}
    (hkeys : KeysAgree ms fs) {k : String} (hcount : ms.countP (·.1 == some k) ≤ 1) :
    (fieldNodes fs).countP (·.1 == some k) ≤ 1 := by
  have hcount_keys (l : List (Option String × Node)) :
      l.countP (·.1 == some k) = (l.map Prod.fst).count (some k) := by
    rw [List.count, List.countP_map]
    rfl
  rw [hcount_keys] at hcount ⊢
  rw [keys_fieldNodes, List.count_map_of_injective _ _ fun _ _ ↦ Option.some.inj]
  exact hkeys.count_le k hcount

/-! ### Fields of a record -/

/-- The fields of a record are presented by its members. -/
theorem Presents.fields? {n : Node} {v : Json} (h : n.Presents v) {names : List String}
    {ms : List (Option Node)} (hms : n.fields? names = some ms) :
    ∃ vs : List (Option Json), v.toNode.fields? names = some (vs.map (·.map toNode))
      ∧ List.Forall₂ (Option.Rel Presents) ms vs := by
  match n, v, h with
  | .object members, .object fs, ⟨hkeys, hfields⟩ =>
    rw [Node.fields?, Option.ite_none_right_eq_some, Option.some.injEq, Bool.and_eq_true,
      List.all_eq_true, List.all_eq_true] at hms
    obtain ⟨⟨-, hcount⟩, rfl⟩ := hms
    have hcount : ∀ k ∈ names, members.countP (·.1 == some k) ≤ 1 :=
      fun k hk ↦ of_decide_eq_true (hcount k hk)
    -- the fields of the value, each looked up under its name
    refine ⟨names.map fun k ↦ Fields.get? k fs, ?_, ?_⟩
    · rw [toNode, Node.fields?, if_pos]
      · simp [find?_fieldNodes]
      · rw [Bool.and_eq_true, List.all_eq_true, List.all_eq_true]
        exact ⟨fun m hm ↦ isSome_of_mem_fieldNodes hm,
          fun k hk ↦ decide_eq_true (countP_fieldNodes_le hkeys (hcount k hk))⟩
    · rw [List.forall₂_map_left_iff, List.forall₂_map_right_iff, List.forall₂_same]
      exact fun k hk ↦ rel_find? hkeys hfields (hcount k hk)
  | .array items, .array vs, h =>
    -- a record may also be written as an array, its fields by position
    have h := presentItems_iff.1 h
    rw [Node.fields?, Option.ite_none_right_eq_some, Option.some.injEq] at hms
    obtain ⟨hlength, rfl⟩ := hms
    refine ⟨vs.map some, ?_, ?_⟩
    · rw [toNode, Node.fields?, itemNodes_eq_map, List.length_map, ← h.length_eq, if_pos hlength,
        List.map_map, List.map_map]
      rfl
    · rw [List.forall₂_map_left_iff, List.forall₂_map_right_iff]
      exact h.imp fun _ _ ↦ .some

/-! ### Usable trees -/

mutual

/-- Usable trees are those that have a value. -/
theorem isSome_value? : ∀ n : Node, n.value?.isSome = n.isUsable
  | .null | .bool _ | .number _ | .string _ | .unusable => rfl
  | .array items => by rw [value?, Option.isSome_map, isSome_values? items, isUsable]
  | .object ms => by rw [value?, Option.isSome_map, isSome_entries? ms, isUsable]

theorem isSome_values? : ∀ ns : List Node, (values? ns).isSome = areUsable ns
  | [] => rfl
  | n :: ns => by
    rw [areUsable, ← isSome_value? n, ← isSome_values? ns, values?]
    cases n.value? <;> cases values? ns <;> rfl

/-- The members of an object; one whose key cannot be read makes all of it unusable. -/
theorem isSome_entries? : ∀ ms : List (Option String × Node),
    (entries? ms).isSome = membersAreUsable ms
  | [] => rfl
  | (none, _) :: _ => rfl
  | (some _, n) :: ms => by
    rw [membersAreUsable, ← isSome_value? n, ← isSome_entries? ms, entries?]
    cases n.value? <;> cases entries? ms <;> rfl

end

mutual

/-- The tree of a value is usable. -/
theorem isUsable_toNode : ∀ v : Json, v.toNode.isUsable = true
  | .null | .bool _ | .number _ | .string _ => rfl
  | .array vs => by rw [toNode, isUsable, areUsable_itemNodes vs]
  | .object fs => by rw [toNode, isUsable, membersAreUsable_fieldNodes fs]

theorem areUsable_itemNodes : ∀ vs : List Json, areUsable (itemNodes vs) = true
  | [] => rfl
  | v :: vs => by
    rw [itemNodes, areUsable, isUsable_toNode v, areUsable_itemNodes vs, Bool.and_self]

theorem membersAreUsable_fieldNodes : ∀ fs : List (String × Json),
    membersAreUsable (fieldNodes fs) = true
  | [] => rfl
  | (_, v) :: fs => by
    rw [fieldNodes, membersAreUsable, isUsable_toNode v, membersAreUsable_fieldNodes fs]
    rfl

end

/-! ### Faithful readers -/

/-- A reader that reads from a value what it reads from a tree that presents the value. -/
def Faithful (read : Node → Option α) : Prop :=
  ∀ ⦃n : Node⦄ ⦃v : Json⦄ ⦃a : α⦄, n.Presents v → read n = some a → read v.toNode = some a

/-- A tree is a string exactly when the value it presents is, and the same one. This is more than
faithfulness, and `faithful_map_string?_value?` needs it in both directions. -/
theorem Presents.string?_eq {n : Node} {v : Json} (h : n.Presents v) :
    v.toNode.string? = n.string? := by
  match n, v, h with
  | .string _, .string _, rfl => rfl
  | .null, .null, _ | .bool _, .bool _, _ | .number _, .number _, _ | .array _, .array _, _
  | .object _, .object _, _ => rfl
  | .unusable, v, h => exact absurd h (not_presents_unusable v)

theorem faithful_string? : Faithful string? :=
  fun _ _ _ h hread ↦ h.string?_eq.trans hread

/-- Unsigned numbers are read from a value as from its tree. Other numbers need not be. -/
theorem faithful_unsigned? : Faithful unsigned? := by
  intro n v i h hread
  match n, v, h with
  | .number _, .number _, h => exact Eq.trans (Eq.symm h) hread

/-- The value of a tree is a string exactly when the tree is. -/
theorem string?_of_value? {n : Node} {v : Json} (h : n.value? = some v) :
    v.string? = n.string? := by
  cases n with
  | null | bool | number | string =>
    cases h
    rfl
  | array | object =>
    obtain ⟨_, -, rfl⟩ := Option.map_eq_some_iff.1 h
    rfl
  | unusable => cases h

/-- Of a value that is read as such only the text is the same. -/
theorem faithful_map_string?_value? : Faithful fun n ↦ n.value?.map Json.string? := by
  intro n v s h hread
  obtain ⟨j, hj, rfl⟩ := Option.map_eq_some_iff.1 hread
  obtain ⟨i, hi⟩ := Option.isSome_iff_exists.1 ((isSome_value? _).trans (isUsable_toNode v))
  refine Option.map_eq_some_iff.2 ⟨i, hi, ?_⟩
  rw [string?_of_value? hi, string?_of_value? hj, h.string?_eq]

/-- A reader of records is faithful if it reads from fields what it reads from members that present
them. -/
theorem faithful_fields? {names : List String} {read : List (Option Node) → Option α}
    (hread : ∀ ms vs a, List.Forall₂ (Option.Rel Presents) ms vs → read ms = some a →
      read (vs.map (·.map toNode)) = some a) :
    Faithful fun n ↦ (n.fields? names).bind read := by
  intro n v a h ha
  obtain ⟨ms, hms, ha⟩ := Option.bind_eq_some_iff.1 ha
  obtain ⟨vs, hvs, hrel⟩ := h.fields? hms
  exact Option.bind_eq_some_iff.2 ⟨_, hvs, hread ms vs a hrel ha⟩

namespace Faithful

variable (hread : Faithful read)
include hread

/-- A field that has to be there is there on both sides or on neither. -/
theorem required? {m : Option Node} {v : Option Json} (hm : Option.Rel Presents m v) {a : α}
    (ha : Node.required? read m = some a) : Node.required? read (v.map toNode) = some a := by
  cases hm with
  | none => cases ha
  | some h => exact hread h ha

/-- A field that may be missing or null is so on both sides or on neither. -/
theorem optional? {m : Option Node} {v : Option Json} (hm : Option.Rel Presents m v) {a : Option α}
    (ha : Node.optional? read m = some a) : Node.optional? read (v.map toNode) = some a := by
  cases hm with
  | none => exact ha
  | @some n w h =>
    match n, w, h with
    | .null, .null, _ => exact ha
    | .bool _, .bool _, h | .number _, .number _, h | .string _, .string _, h
    | .array _, .array _, h | .object _, .object _, h =>
      obtain ⟨b, hb, rfl⟩ := Option.map_eq_some_iff.1 ha
      exact Option.map_eq_some_iff.2 ⟨b, hread h hb, rfl⟩
    | .unusable, w, h => exact absurd h (not_presents_unusable w)

theorem listOf? : Faithful (Node.listOf? read) := by
  intro n v as h has
  match n, v, h with
  | .array items, .array vs, h =>
    rw [toNode, Node.listOf?, itemNodes_eq_map]
    rw [Node.listOf?] at has
    replace h := presentItems_iff.1 h
    induction h generalizing as with
    | nil => exact has
    | cons hn _ ih =>
      simp only [List.mapM_cons, Option.bind_eq_bind, Option.bind_eq_some_iff, pure,
        Option.some.injEq] at has
      obtain ⟨a, ha, rest, hrest, rfl⟩ := has
      rw [List.map_cons, List.mapM_cons, hread hn ha, ih hrest]
      rfl

end Faithful

/-- What is forgotten of the result may be forgotten while a field is read. -/
theorem optional?_map (f : α → β) (m : Option Node) :
    optional? (fun n ↦ (read n).map f) m = (optional? read m).map (Option.map f) := by
  unfold optional?
  split <;> simp [Option.map_map, Function.comp_def]

/-- What is forgotten of the results may be forgotten while a list is read. -/
theorem listOf?_map (f : α → β) (n : Node) :
    listOf? (fun n ↦ (read n).map f) n = (listOf? read n).map (List.map f) := by
  unfold listOf?
  split
  · next items =>
    induction items with
    | nil => rfl
    | cons item items ih =>
      rw [List.mapM_cons, List.mapM_cons, ih]
      cases read item with
      | none => rfl
      | some a => cases items.mapM read <;> rfl
  · rfl

end PostBlocks.Json.Node
