import PostBlocks.Block.Delimiter
import PostBlocks.Proofs.Html.Escape

/-!
# Markup and the text it displays

`Displays p html text` says that some markup is a text, still with its entities, in which line feeds
may stand as `br` elements, between tags of which `p` says what they hold. Such markup starts no
comment if no tag does (`Displays.no_comment`). And the text can be read off it without knowing how
it is built: breaks first, then no tags (`Displays.dropTags_readBreaks`).

The text keeps its entities. None of them holds an angle bracket, so they can be read once the tags
are gone (`displayed`), and `Displays` needs no case for them. A line feed of the text may be one of
the markup or a break; the relation does not tell which, as builders differ in this and the
displayed text does not.

The predicate is a parameter so that one relation serves for all tables of tags: builders use tags
that are known, and a table adds its own.
-/

namespace PostBlocks.Html

/-- Markup and the text it displays; `p` says what stands between the angle brackets of its tags. -/
inductive Displays (p : List Char → Prop) : List Char → List Char → Prop
  | nil : Displays p [] []
  | char {c : Char} {html text : List Char} (hc : c ≠ '<') :
    Displays p html text → Displays p (c :: html) (c :: text)
  | lineBreak {html text : List Char} :
    Displays p html text → Displays p ("<br>".toList ++ html) ('\n' :: text)
  | tag {name html text : List Char} (hname : p name) :
    Displays p html text → Displays p ('<' :: name ++ '>' :: html) text

/-- What stands between the angle brackets of a tag that is no comment. -/
def IsTag (name : List Char) : Prop :=
  '<' ∉ name ∧ '>' ∉ name ∧ name.head? ≠ some '!'

instance (name : List Char) : Decidable (IsTag name) :=
  inferInstanceAs (Decidable (_ ∧ _ ∧ _))

/-- Tags may hold anything but a comment or a break. -/
def AllowsTags (p : List Char → Prop) : Prop :=
  ∀ name, IsTag name → name ≠ ['b', 'r'] → p name

namespace Displays

variable {p q : List Char → Prop} {html text : List Char}

/-- Markup that displays a text with some tags does so with more. -/
theorem imp (hpq : ∀ name, p name → q name) (h : Displays p html text) :
    Displays q html text := by
  induction h with
  | nil => exact .nil
  | char hc _ ih => exact .char hc ih
  | lineBreak _ ih => exact .lineBreak ih
  | tag hname _ ih => exact .tag (hpq _ hname) ih

theorem append {html' text' : List Char} (h : Displays p html text)
    (h' : Displays p html' text') : Displays p (html ++ html') (text ++ text') := by
  induction h with
  | nil => exact h'
  | char hc _ ih => exact .char hc ih
  | lineBreak _ ih => exact .lineBreak ih
  | @tag name _ _ hname _ ih =>
    rw [List.append_assoc, List.cons_append]
    exact .tag hname ih

/-- What stands between tags is all that is displayed. -/
theorem between {opening closing : List Char} (hopening : Displays p opening [])
    (hclosing : Displays p closing []) (h : Displays p html text) :
    Displays p (opening ++ html ++ closing) text := by
  have := (hopening.append h).append hclosing
  rwa [List.nil_append, List.append_nil] at this

/-- Text without tags displays itself. -/
theorem self {cs : List Char} (h : '<' ∉ cs) : Displays p cs cs := by
  induction cs with
  | nil => exact .nil
  | cons c cs ih =>
    simp only [List.mem_cons, not_or] at h
    exact .char (Ne.symm h.1) (ih h.2)

/-- Tags display nothing. -/
theorem tags (names : List (List Char)) (h : ∀ name ∈ names, p name) :
    Displays p (names.flatMap fun name ↦ '<' :: name ++ ['>']) [] := by
  induction names with
  | nil => exact .nil
  | cons name names ih =>
    obtain ⟨hname, hnames⟩ := List.forall_mem_cons.1 h
    rw [List.flatMap_cons, List.append_assoc]
    exact .tag hname (ih hnames)

/-- Tags that are spelled out display nothing. -/
theorem ofTags (hp : AllowsTags p) (names : List String)
    (h : ∀ name ∈ names, IsTag name.toList ∧ name.toList ≠ ['b', 'r']) :
    Displays p (names.flatMap fun name ↦ '<' :: name.toList ++ ['>']) [] := by
  have htags : Displays p _ [] := tags (names.map String.toList) (by
    rw [List.forall_mem_map]
    exact fun name hname ↦ hp _ (h name hname).1 (h name hname).2)
  rwa [List.flatMap_map] at htags

/-- Writing line feeds as breaks does not change what is displayed. -/
theorem breakChars (hp : ∀ name, p name → '\n' ∉ name) (h : Displays p html text) :
    Displays p (breakChars html) text := by
  induction h with
  | nil => exact .nil
  | @char c html text hc _ ih =>
    rw [← List.singleton_append, breakChars_append]
    by_cases hfeed : c = '\n'
    · subst hfeed
      exact .lineBreak ih
    · rw [breakChars_eq_self (by simpa using Ne.symm hfeed)]
      exact .char hc ih
  | lineBreak _ ih =>
    rw [breakChars_append, breakChars_eq_self (by decide)]
    exact .lineBreak ih
  | @tag name html text hname _ ih =>
    have hne : '\n' ∉ '<' :: name ++ ['>'] := by
      have := hp name hname
      simp [this]
    rw [← List.singleton_append (l := html), ← List.append_assoc, breakChars_append,
      breakChars_eq_self hne, List.append_assoc]
    exact .tag hname ih

/-! ### Comments -/

/-- What starts with a character that the front lacks is found behind the front or not at all. -/
theorem not_infix_of_not_mem {c : Char} {lead cs ds : List Char} (hcs : c ∉ cs)
    (h : ¬c :: lead <:+: ds) : ¬c :: lead <:+: cs ++ ds := by
  induction cs with
  | nil => exact h
  | cons d cs ih =>
    simp only [List.mem_cons, not_or] at hcs
    rw [List.cons_append, List.infix_cons_iff, List.cons_prefix_cons]
    rintro (hpre | hinf)
    · exact hcs.1 hpre.1
    · exact ih hcs.2 hinf

/-- Markup starts no comment unless one of its tags does. -/
theorem no_comment (hp : ∀ name, p name → IsTag name) (h : Displays p html text) :
    ¬Mark.commentOpen <:+: html := by
  have hopen : Mark.commentOpen = '<' :: ['!', '-', '-'] := rfl
  rw [hopen]
  induction h with
  | nil => simp
  | char hc _ ih =>
    rw [List.infix_cons_iff, List.cons_prefix_cons]
    rintro (hpre | hinf)
    · exact hc hpre.1.symm
    · exact ih hinf
  | @lineBreak html text _ ih =>
    have hbreak : "<br>".toList ++ html = '<' :: (['b', 'r', '>'] ++ html) := rfl
    rw [hbreak, List.infix_cons_iff, List.cons_prefix_cons]
    rintro (hpre | hinf)
    · exact absurd (List.cons_prefix_cons.1 hpre.2).1 (by decide)
    · exact not_infix_of_not_mem (by decide) ih hinf
  | @tag name html text hname _ ih =>
    obtain ⟨hlt, hgt, hbang⟩ := hp name hname
    rw [List.cons_append, List.infix_cons_iff, List.cons_prefix_cons]
    -- a comment would start at the bracket of the tag, since the tag holds no other
    rintro (hpre | hinf)
    · cases name with
      | nil => exact absurd (List.cons_prefix_cons.1 hpre.2).1 (by decide)
      | cons c name => exact hbang (congrArg some (List.cons_prefix_cons.1 hpre.2).1.symm)
    · rw [← List.singleton_append (l := html), ← List.append_assoc] at hinf
      exact not_infix_of_not_mem (by simp [hlt]) ih hinf

end Displays

/-! ### Reading the text off -/

/-- Markup with a line feed for every `br` element. -/
def readBreaks : List Char → List Char
  | '<' :: 'b' :: 'r' :: '>' :: cs => '\n' :: readBreaks cs
  | c :: cs => c :: readBreaks cs
  | [] => []

/-- Markup without its tags: each angle bracket and what follows up to the next closing one. -/
def dropTags : List Char → List Char
  | [] => []
  | c :: cs =>
    if c = '<' ∧ '>' ∈ cs then dropTags (cs.dropWhile (· ≠ '>')).tail else c :: dropTags cs
termination_by cs => cs.length
decreasing_by
  · have := (List.dropWhile_suffix (l := cs) (· ≠ '>')).length_le
    simp only [List.length_tail, List.length_cons]
    omega
  · simp

/-- The text that some markup displays. -/
def displayed (html : String) : String :=
  unescape (.ofList (dropTags (readBreaks html.toList)))

theorem readBreaks_cons {c : Char} (hc : c ≠ '<') (cs : List Char) :
    readBreaks (c :: cs) = c :: readBreaks cs := by
  rw [readBreaks.eq_def]
  split <;> simp_all

theorem readBreaks_append {cs : List Char} (hcs : '<' ∉ cs) (ds : List Char) :
    readBreaks (cs ++ ds) = cs ++ readBreaks ds := by
  induction cs with
  | nil => rfl
  | cons c cs ih =>
    simp only [List.mem_cons, not_or] at hcs
    rw [List.cons_append, readBreaks_cons (Ne.symm hcs.1), ih hcs.2, List.cons_append]

/-- A tag that is no break stays. -/
theorem readBreaks_tag {name : List Char} (hname : IsTag name) (hbr : name ≠ ['b', 'r'])
    (cs : List Char) :
    readBreaks ('<' :: name ++ '>' :: cs) = '<' :: name ++ '>' :: readBreaks cs := by
  obtain ⟨hlt, hgt, -⟩ := hname
  have hopen : readBreaks ('<' :: name ++ '>' :: cs) = '<' :: readBreaks (name ++ '>' :: cs) := by
    rw [List.cons_append, readBreaks.eq_def]
    split
    · next heq =>
      obtain ⟨-, heq⟩ := List.cons.inj heq
      match name, heq with
      | ['b', 'r'], _ => exact absurd rfl hbr
      | _ :: _ :: _ :: _, heq => simp_all
    · next heq =>
      obtain ⟨rfl, rfl⟩ := List.cons.inj heq
      rfl
    · next heq => cases heq
  rw [hopen, readBreaks_append hlt, readBreaks_cons (by decide), List.cons_append]

theorem dropTags_cons {c : Char} (hc : c ≠ '<') (cs : List Char) :
    dropTags (c :: cs) = c :: dropTags cs := by
  rw [dropTags, if_neg fun h ↦ hc h.1]

/-- A tag ends at its first closing bracket. -/
theorem dropTags_tag {name : List Char} (hname : IsTag name) (cs : List Char) :
    dropTags ('<' :: name ++ '>' :: cs) = dropTags cs := by
  rw [List.cons_append, dropTags, if_pos ⟨rfl, by simp⟩, Text.dropWhile_append_cons hname.2.1,
    List.tail_cons]

/-- Without its tags and with its breaks read, markup is the text it displays. -/
theorem Displays.dropTags_readBreaks {p : List Char → Prop} {html text : List Char}
    (hp : ∀ name, p name → IsTag name ∧ name ≠ ['b', 'r']) (h : Displays p html text) :
    dropTags (readBreaks html) = text := by
  induction h with
  | nil => rw [readBreaks, dropTags]
  | char hc _ ih => rw [readBreaks_cons hc, dropTags_cons hc, ih]
  | @lineBreak html text _ ih =>
    have hbreak : readBreaks ("<br>".toList ++ html) = '\n' :: readBreaks html := rfl
    rw [hbreak, dropTags_cons (by decide), ih]
  | tag hname _ ih =>
    obtain ⟨htag, hbr⟩ := hp _ hname
    rw [readBreaks_tag htag hbr, dropTags_tag htag, ih]

end PostBlocks.Html
