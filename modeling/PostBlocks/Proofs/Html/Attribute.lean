import Mathlib.Data.List.DropRight
import Mathlib.Data.List.Infix
import PostBlocks.Proofs.Text.Ends

/-!
# Quoted values of markup

A value in markup reaches from a quote to the next one, so it is found behind what stands in front
of it (`quotedAfter?_append`) if it has no quote itself. Markup that has no quotes but those of its
attributes is cut by them into names and values in turn (`attributes_append`).
-/

namespace PostBlocks.Html

/-- What stands in front of the first quote. -/
def upToQuote? (cs : List Char) : Option (List Char) :=
  if cs.contains '"' then some (cs.takeWhile (· ≠ '"')) else none

/-- What stands between the first `lead` in some markup and the next quote. -/
def quotedAfter? (lead html : List Char) : Option (List Char) :=
  (html.tails.findSome? (Text.after? lead)).bind upToQuote?

/-- The name of an attribute: the word in front of the equals sign that ends a part of markup. -/
def attributeName (lead : List Char) : String :=
  .ofList (lead.dropLast.rtakeWhile (· ≠ ' '))

/-- The attributes in some markup of which the quotes have been taken out. -/
def attributesOfParts : List (List Char) → List (String × List Char)
  | lead :: value :: parts => (attributeName lead, value) :: attributesOfParts parts
  | _ => []

/-- The attributes of the elements in some markup, each name with what is written in quotes. -/
def attributes (html : List Char) : List (String × List Char) :=
  attributesOfParts (html.splitOnP (· = '"'))

/-! ### What stands behind a text -/

/-- A value without a quote ends where its quote is. -/
theorem upToQuote?_append {value : List Char} (h : '"' ∉ value) (rest : List Char) :
    upToQuote? (value ++ '"' :: rest) = some value := by
  rw [upToQuote?, if_pos (by simp), Text.takeWhile_append_cons h]

/-- Where the markup starts with `lead`, that is its first occurrence. -/
theorem quotedAfter?_of_prefix (lead rest : List Char) :
    quotedAfter? lead (lead ++ rest) = upToQuote? rest := by
  have hlead : Text.after? lead (lead ++ rest) = some rest := Text.after?_eq_some_iff.2 rfl
  have hfirst : ∃ tails, (lead ++ rest).tails = (lead ++ rest) :: tails := by
    cases lead ++ rest <;> simp
  obtain ⟨tails, htails⟩ := hfirst
  rw [quotedAfter?, htails, List.findSome?_cons, hlead, Option.bind_some]

/-- Where it does not, the search goes on one character further. -/
theorem quotedAfter?_of_not_prefix {lead cs : List Char} {c : Char} (h : ¬lead <+: c :: cs) :
    quotedAfter? lead (c :: cs) = quotedAfter? lead cs := by
  have hnone : Text.after? lead (c :: cs) = none :=
    Option.eq_none_iff_forall_ne_some.2 fun ds hds ↦
      h ⟨ds, (Text.after?_eq_some_iff.1 hds).symm⟩
  rw [quotedAfter?, List.tails_cons, List.findSome?_cons, hnone, quotedAfter?]

/-- A value is found behind the first `lead` of some markup. -/
theorem quotedAfter?_append {front lead value : List Char}
    (hfirst : ∀ n < front.length, ¬lead <+: (front ++ lead).drop n) (hvalue : '"' ∉ value)
    (rest : List Char) :
    quotedAfter? lead (front ++ lead ++ value ++ '"' :: rest) = some value := by
  rw [List.append_assoc _ value]
  induction front with
  | nil =>
    rw [List.nil_append, quotedAfter?_of_prefix, upToQuote?_append hvalue]
  | cons c front ih =>
    have hnot : ¬lead <+: c :: (front ++ lead ++ (value ++ '"' :: rest)) := by
      intro h
      refine hfirst 0 (Nat.zero_lt_succ _) (List.prefix_of_prefix_length_le h ?_ ?_)
      · exact List.prefix_append (c :: front ++ lead) (value ++ '"' :: rest)
      · rw [List.drop_zero, List.length_append]
        exact Nat.le_add_left _ _
    rw [List.cons_append, List.cons_append, quotedAfter?_of_not_prefix hnot]
    exact ih fun n hn ↦ hfirst (n + 1) (Nat.succ_lt_succ hn)

/-! ### Names and values -/

theorem decide_eq_quote {cs : List Char} (h : '"' ∉ cs) : ∀ c ∈ cs, decide (c = '"') = false :=
  fun _ hc ↦ decide_eq_false fun heq ↦ h (heq ▸ hc)

/-- Markup without quotes has no attributes. -/
theorem attributes_of_not_mem {html : List Char} (h : '"' ∉ html) : attributes html = [] := by
  rw [attributes, List.splitOnP_eq_singleton (decide_eq_quote h)]
  rfl

/-- A name and a value in quotes come apart from what follows. -/
theorem attributes_append {lead value : List Char} (hlead : '"' ∉ lead) (hvalue : '"' ∉ value)
    (rest : List Char) : attributes (lead ++ '"' :: (value ++ '"' :: rest))
      = (attributeName lead, value) :: attributes rest := by
  rw [attributes, List.splitOnP_append_cons_of_forall_mem (decide_eq_quote hlead) '"' (by decide),
    List.splitOnP_append_cons_of_forall_mem (decide_eq_quote hvalue) '"' (by decide),
    attributesOfParts, attributes]

end PostBlocks.Html
