import Mathlib.Data.List.Count
import Mathlib.Data.List.Forall2
import Mathlib.Data.List.Nodup
import PostBlocks.Proofs.Json.Numbers
import PostBlocks.Proofs.Json.Tree

/-!
# Trees that present a value

A record is read from the tree of a text or from that of a value, and the two trees need not be the
same: the text may repeat keys of which the value has one, and a double may be another one after it
has been written. `Node.Presents` says what they have to share so that what is read from the first
is read from the second: the same shape, the same scalars but for doubles, and under each key that
comes once the same field. The tree of a text presents its value (`presents_of_value?`), and values
that differ in their doubles present each other (`presents_mapNumbers`).

What has to agree is what readers of posts look at, and no more:

* of a number, whether it is an unsigned integer and which one, as no reader of a post takes a
  double;
* of a key, whether it comes once. Members may repeat a key and fields of a value do not; a reader
  refuses an object that repeats a name it looks for, so other keys do not matter (`KeysAgree`);
* of an object, that each field of the value is among the members (`presentFields_iff`). Members
  that a repeated key has overwritten need not present anything.

What could not be read presents no value (`not_presents_unusable`).
-/

namespace PostBlocks.Json

/-! ### Presenting a value -/

/-- Members and fields with the same keys; a key that comes once in one comes once in the other. -/
structure KeysAgree (ms : List (Option String × Node)) (fs : List (String × Json)) : Prop where
  exists_field : ∀ key ∈ ms.map Prod.fst, ∃ k ∈ fs.map Prod.fst, key = some k
  count_le : ∀ k, (ms.map Prod.fst).count (some k) ≤ 1 → (fs.map Prod.fst).count k ≤ 1

mutual

/-- A tree with the shape of a value, its scalars but for doubles, and its fields among others. -/
def Node.Presents : Node → Json → Prop
  | .null, .null => True
  | .bool b, .bool c => b = c
  | .number n, .number m => n.unsigned? = m.unsigned?
  | .string s, .string t => s = t
  | .array items, .array vs => Node.PresentItems items vs
  | .object ms, .object fs => KeysAgree ms fs ∧ Node.PresentFields ms fs
  | _, _ => False

/-- Trees that present values, one by one. -/
def Node.PresentItems : List Node → List Json → Prop
  | [], [] => True
  | n :: ns, v :: vs => n.Presents v ∧ Node.PresentItems ns vs
  | _, _ => False

/-- Each field is presented by some member. -/
def Node.PresentFields (ms : List (Option String × Node)) : List (String × Json) → Prop
  | [] => True
  | (k, v) :: fs => (∃ w, (some k, w) ∈ ms ∧ w.Presents v) ∧ Node.PresentFields ms fs

end

namespace Node

/-- Only trees that can be read present a value, so a reader need not look at others. -/
theorem not_presents_unusable (v : Json) : ¬unusable.Presents v := by
  cases v <;> exact id

/-- The recursion over the fields comes to one condition on each of them. -/
theorem presentFields_iff {ms : List (Option String × Node)} {fs : List (String × Json)} :
    PresentFields ms fs ↔ ∀ f ∈ fs, ∃ w, (some f.1, w) ∈ ms ∧ w.Presents f.2 := by
  induction fs with
  | nil => simp [PresentFields]
  | cons f fs ih => rw [PresentFields, ih, List.forall_mem_cons]

/-- Items are presented pairwise. In this form `mapM` is followed along both lists. -/
theorem presentItems_iff {ns : List Node} {vs : List Json} :
    PresentItems ns vs ↔ List.Forall₂ Presents ns vs := by
  induction ns generalizing vs with
  | nil => cases vs <;> simp [PresentItems]
  | cons n ns ih => cases vs <;> simp [PresentItems, ih]

/-! ### The tree of a text and its value -/

/-- Members that all have values have keys that could all be read. -/
theorem keys_of_entries? {ms : List (Option String × Node)} {es : List (String × Json)}
    (h : entries? ms = some es) : ms.map Prod.fst = es.map fun e ↦ some e.1 := by
  induction ms generalizing es with
  | nil =>
    cases h
    rfl
  | cons m ms ih =>
    obtain ⟨_ | k, w⟩ := m
    · cases h
    · simp only [entries?, Option.bind_eq_bind, Option.bind_eq_some_iff, pure,
        Option.some.injEq] at h
      obtain ⟨j, hj, es, hes, rfl⟩ := h
      simp [ih hes]

/-- Of a repeated key the value has one field, so no key of the value is new and none is repeated.
-/
theorem keysAgree_ofList {ms : List (Option String × Node)} {es : List (String × Json)}
    (h : entries? ms = some es) : KeysAgree ms (Fields.ofList es) := by
  refine ⟨fun key hkey ↦ ?_,
    fun k _ ↦ List.nodup_iff_count_le_one.1 (Fields.nodup_keys_ofList es) k⟩
  rw [keys_of_entries? h] at hkey
  obtain ⟨e, he, rfl⟩ := List.mem_map.1 hkey
  exact ⟨e.1, Fields.mem_keys_ofList.2 (List.mem_map.2 ⟨e, he, rfl⟩), rfl⟩

mutual

/-- A tree with a value presents it: of a repeated key the value has one field. -/
theorem presents_of_value? : ∀ (n : Node) {v : Json}, n.value? = some v → n.Presents v
  | .null, _, h | .bool _, _, h | .number _, _, h | .string _, _, h => by
    cases h
    trivial
  | .array items, v, h => by
    rw [value?, Option.map_eq_some_iff] at h
    obtain ⟨vs, hvs, rfl⟩ := h
    exact presentItems_of_values? items hvs
  | .object ms, v, h => by
    rw [value?, Option.map_eq_some_iff] at h
    obtain ⟨es, hes, rfl⟩ := h
    -- a field of the value is one of the entries, repeated keys or not
    refine ⟨keysAgree_ofList hes, presentFields_iff.2 fun f hf ↦ ?_⟩
    exact presents_of_entries? ms hes f (Fields.mem_of_mem_ofList hf)
  | .unusable, _, h => by cases h

theorem presentItems_of_values? : ∀ (ns : List Node) {vs : List Json},
    values? ns = some vs → PresentItems ns vs
  | [], _, h => by
    cases h
    trivial
  | n :: ns, vs, h => by
    simp only [values?, Option.bind_eq_bind, Option.bind_eq_some_iff, pure,
      Option.some.injEq] at h
    obtain ⟨v, hv, vs, hvs, rfl⟩ := h
    exact ⟨presents_of_value? n hv, presentItems_of_values? ns hvs⟩

/-- The entries of an object, while a repeated key still has all of its own. -/
theorem presents_of_entries? : ∀ (ms : List (Option String × Node)) {es : List (String × Json)},
    entries? ms = some es → ∀ f ∈ es, ∃ w, (some f.1, w) ∈ ms ∧ w.Presents f.2
  | [], _, h => by
    cases h
    exact fun _ hf ↦ nomatch hf
  | (none, _) :: _, _, h => by cases h
  | (some k, w) :: ms, es, h => by
    simp only [entries?, Option.bind_eq_bind, Option.bind_eq_some_iff, pure,
      Option.some.injEq] at h
    obtain ⟨v, hv, es, hes, rfl⟩ := h
    refine List.forall_mem_cons.2 ⟨⟨w, List.mem_cons_self, presents_of_value? w hv⟩, fun f hf ↦ ?_⟩
    obtain ⟨x, hx, hpresents⟩ := presents_of_entries? ms hes f hf
    exact ⟨x, List.mem_cons_of_mem _ hx, hpresents⟩

end

/-! ### Values that differ in their numbers -/

theorem keys_fieldNodes (fs : List (String × Json)) :
    (fieldNodes fs).map Prod.fst = (fs.map Prod.fst).map some := by
  induction fs with
  | nil => rfl
  | cons f fs ih => simp [fieldNodes, ih]

theorem keys_mapFields (g : Number → Number) (fs : List (String × Json)) :
    (mapFields g fs).map Prod.fst = fs.map Prod.fst := by
  induction fs with
  | nil => rfl
  | cons f fs ih => simp [mapFields, ih]

/-- Keys have no numbers in them, so they agree however the numbers of the two sides have been
changed. -/
theorem keysAgree_mapFields (g g' : Number → Number) (fs : List (String × Json)) :
    KeysAgree (fieldNodes (mapFields g fs)) (mapFields g' fs) := by
  have hkeys : (fieldNodes (mapFields g fs)).map Prod.fst
      = ((mapFields g' fs).map Prod.fst).map some := by
    rw [keys_fieldNodes, keys_mapFields, keys_mapFields]
  refine ⟨fun key hkey ↦ ?_, fun k hk ↦ ?_⟩
  · rw [hkeys] at hkey
    obtain ⟨k, hk, rfl⟩ := List.mem_map.1 hkey
    exact ⟨k, hk, rfl⟩
  · rwa [hkeys, List.count_map_of_injective _ _ fun _ _ ↦ Option.some.inj] at hk

mutual

/-- Values that differ only in numbers that are not unsigned integers present each other. -/
theorem presents_mapNumbers {g g' : Number → Number} : ∀ v : Json,
    (∀ n ∈ v.numbers, (g n).unsigned? = (g' n).unsigned?) →
      (v.mapNumbers g).toNode.Presents (v.mapNumbers g')
  | .null, _ => trivial
  | .bool _, _ | .string _, _ => rfl
  | .number n, h => h n (List.mem_singleton.2 rfl)
  | .array vs, h => presentItems_mapItems vs h
  | .object fs, h => ⟨keysAgree_mapFields g g' fs, presentFields_iff.2 (presents_mapFields fs h)⟩

theorem presentItems_mapItems {g g' : Number → Number} : ∀ vs : List Json,
    (∀ n ∈ itemNumbers vs, (g n).unsigned? = (g' n).unsigned?) →
      PresentItems (itemNodes (mapItems g vs)) (mapItems g' vs)
  | [], _ => trivial
  | v :: vs, h => by
    obtain ⟨hv, hvs⟩ := List.forall_mem_append.1 h
    exact ⟨presents_mapNumbers v hv, presentItems_mapItems vs hvs⟩

/-- The fields of an object: each finds its member at its own place. -/
theorem presents_mapFields {g g' : Number → Number} : ∀ fs : List (String × Json),
    (∀ n ∈ fieldNumbers fs, (g n).unsigned? = (g' n).unsigned?) →
      ∀ f ∈ mapFields g' fs, ∃ w, (some f.1, w) ∈ fieldNodes (mapFields g fs) ∧ w.Presents f.2
  | [], _ => fun _ hf ↦ nomatch hf
  | (k, v) :: fs, h => by
    obtain ⟨hv, hfs⟩ := List.forall_mem_append.1 h
    refine List.forall_mem_cons.2
      ⟨⟨_, List.mem_cons_self, presents_mapNumbers v hv⟩, fun f hf ↦ ?_⟩
    obtain ⟨w, hw, hpresents⟩ := presents_mapFields fs hfs f hf
    exact ⟨w, List.mem_cons_of_mem _ hw, hpresents⟩

end

/-- The case of a value and of the one it becomes when its numbers are changed. It holds in both
directions, as a record may be read from either of them first. -/
theorem presents_mapNumbers_self {g : Number → Number} (v : Json)
    (h : ∀ n ∈ v.numbers, (g n).unsigned? = n.unsigned?) :
    (v.mapNumbers g).toNode.Presents v ∧ v.toNode.Presents (v.mapNumbers g) := by
  have hleft := @presents_mapNumbers g id v h
  have hright := @presents_mapNumbers id g v fun n hn ↦ (h n hn).symm
  rw [mapNumbers_id] at hleft hright
  exact ⟨hleft, hright⟩

end Node

end PostBlocks.Json
