import PostBlocks.Proofs.Html.Displays

/-!
# Escaped text between tags

`Carries p html text` says that some markup is a text, each character of it escaped, with tags
anywhere between the characters, of which `p` says what they hold. Line feeds of the text are line
feeds of the markup, which tells this apart from `Displays`; so it is known what becomes of them
when they are written as breaks.
-/

namespace PostBlocks.Html

/-- Markup and the text it carries; `p` says what stands between the angle brackets of its tags. -/
inductive Carries (p : List Char → Prop) : List Char → List Char → Prop
  | nil : Carries p [] []
  | char (c : Char) {html text : List Char} :
    Carries p html text → Carries p (escapeChar c ++ html) (c :: text)
  | tag {name html text : List Char} (hname : p name) :
    Carries p html text → Carries p ('<' :: name ++ '>' :: html) text

namespace Carries

variable {p q : List Char → Prop} {html text : List Char}

theorem imp (hpq : ∀ name, p name → q name) (h : Carries p html text) : Carries q html text := by
  induction h with
  | nil => exact .nil
  | char c _ ih => exact .char c ih
  | tag hname _ ih => exact .tag (hpq _ hname) ih

/-- Markup that carries two texts one after another carries both. -/
theorem append {html' text' : List Char} (h : Carries p html text)
    (h' : Carries p html' text') : Carries p (html ++ html') (text ++ text') := by
  induction h with
  | nil => exact h'
  | char c _ ih =>
    rw [List.append_assoc]
    exact .char c ih
  | tag hname _ ih =>
    rw [List.append_assoc, List.cons_append]
    exact .tag hname ih

/-- What stands between tags is all that is carried. -/
theorem between {opening closing : List Char} (hopening : Carries p opening [])
    (hclosing : Carries p closing []) (h : Carries p html text) :
    Carries p (opening ++ html ++ closing) text := by
  have := (hopening.append h).append hclosing
  rwa [List.nil_append, List.append_nil] at this

/-- Escaped text carries the text. -/
theorem escapeChars (cs : List Char) : Carries p (escapeChars cs) cs := by
  induction cs with
  | nil => exact .nil
  | cons c cs ih => exact .char c ih

/-- Tags carry nothing. -/
theorem tags {α : Type} (f : α → List Char) (names : List α) (h : ∀ name ∈ names, p (f name)) :
    Carries p (names.flatMap fun name ↦ '<' :: f name ++ ['>']) [] := by
  induction names with
  | nil => exact .nil
  | cons name names ih =>
    obtain ⟨hname, hnames⟩ := List.forall_mem_cons.1 h
    rw [List.flatMap_cons, List.append_assoc]
    exact .tag hname (ih hnames)

/-- What markup carries, it displays once it is escaped. -/
theorem displays (h : Carries p html text) : Displays p html (Html.escapeChars text) := by
  induction h with
  | nil => exact .nil
  | char c _ ih =>
    have hself : Displays p (escapeChar c) (escapeChar c) := .self (lt_not_mem_escapeChar c)
    exact hself.append ih
  | tag hname _ ih => exact .tag hname ih

end Carries

end PostBlocks.Html
