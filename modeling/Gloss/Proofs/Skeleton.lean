import Gloss.Proofs.Glyph
/-!
# The skeleton of a text

What a program's text says apart from its comments and its layout: the literals
and the words of its code in order, and between which of them there is anything
at all. `outline_code`, `outline_comment` and `outline_literal` build the outline of
a text from its front.
-/

namespace Gloss

/-- What a skeleton is made of. -/
inductive Item where
  /-- Solid characters of code, as many as stand together. -/
  | word (text : Text)
  | literal (kind : Kind) (text : Text)
  deriving DecidableEq, Repr

/-- Items, each with whether something separates it from the next one; for the
last item that is `false`. `gap` says whether something stands before the first. -/
structure Outline where
  gap : Bool := false
  items : List (Item × Bool) := []
  deriving DecidableEq, Repr

namespace Outline

/-- White space or a comment comes to stand in front. -/
def separate (o : Outline) : Outline := { o with gap := true }

/-- An item comes to stand in front. -/
def push (i : Item) (o : Outline) : Outline :=
  { gap := false, items := (i, o.gap && !o.items.isEmpty) :: o.items }

/-- A solid character of code comes to stand in front: it joins the word there,
if one starts right behind it. -/
def pushChar (c : Char) (o : Outline) : Outline :=
  match o.gap, o.items with
  | false, (.word w, apart) :: items => { gap := false, items := (.word (c :: w), apart) :: items }
  | _, _ => o.push (.word [c])

/-- A character of code comes to stand in front. -/
def pushCode (c : Char) (o : Outline) : Outline :=
  if Text.isWhite c then o.separate else o.pushChar c

/-- A fragment comes to stand in front. -/
def pushFragment (f : Fragment) (o : Outline) : Outline :=
  if f.kind.isComment then o.separate
  else if f.kind.isLiteral then o.push (.literal f.kind f.text)
  else f.text.foldr pushCode o

end Outline

/-- The outline of a text as it is scanned. -/
def Rules.outline (r : Rules) (s : Text) : Outline :=
  (r.fragments s).foldr Outline.pushFragment {}

/-- The literals and words of a text in order, each with whether white space or a
comment separates it from the next. -/
def Rules.skeleton (r : Rules) (s : Text) : List (Item × Bool) := (r.outline s).items

/-! ## Outlines that differ before their first item only -/

namespace Outline

/-- The same items, and the same in front of them if there are any. -/
structure Alike (o p : Outline) : Prop where
  items : o.items = p.items
  gap : o.items ≠ [] → o.gap = p.gap

theorem push_congr {o p : Outline} (i : Item) (h : o.Alike p) : o.push i = p.push i := by
  obtain ⟨og, oi⟩ := o
  obtain ⟨pg, pi⟩ := p
  obtain ⟨hi, hg⟩ := h
  simp only at hi hg
  subst hi
  by_cases he : oi = []
  · simp [push, he]
  · rw [hg he]

theorem pushChar_congr {o p : Outline} (c : Char) (h : o.Alike p) :
    o.pushChar c = p.pushChar c := by
  by_cases he : o.items = []
  · have hp : p.items = [] := by rw [← h.items, he]
    simp only [pushChar, he, hp]
    cases o.gap <;> cases p.gap <;> exact push_congr _ h
  · obtain ⟨og, oi⟩ := o
    obtain ⟨pg, pi⟩ := p
    obtain ⟨hi, hg⟩ := h
    simp only at hi hg he
    rw [hi, hg he]

end Outline

/-! ## The outline of a text from its front -/

namespace Rules
variable {r : Rules}

theorem foldr_pushFragment_layOut (offset : Nat) (ls : List Lexeme) (o : Outline) :
    (layOut offset ls).foldr Outline.pushFragment o =
      ls.foldr (fun l => Outline.pushFragment ⟨l.kind, .zero, l.text, none⟩) o := by
  induction ls generalizing offset with
  | nil => rfl
  | cons l ls ih => simp only [layOut, List.foldr_cons, ih]; rfl

theorem outline_eq (s : Text) :
    r.outline s =
      (r.lexemes s).foldr (fun l => Outline.pushFragment ⟨l.kind, .zero, l.text, none⟩) {} :=
  foldr_pushFragment_layOut 0 (r.lexemes s) {}

@[simp] theorem outline_nil : r.outline [] = {} := by rw [outline_eq, lexemes_nil]; rfl

theorem outline_comment {o : Opener} {inside rest : Text} {closed : Bool}
    (ho : r.opener? (o.token ++ (inside ++ rest)) = some o) (h : r.Ends o inside closed rest)
    (hk : o.kind.isComment = true) :
    r.outline (o.token ++ (inside ++ rest)) = (r.outline rest).separate := by
  rw [outline_eq, lexemes_construct ho h, List.foldr_cons, ← outline_eq, Outline.pushFragment,
    if_pos hk]

theorem outline_literal {o : Opener} {inside rest : Text} {closed : Bool}
    (ho : r.opener? (o.token ++ (inside ++ rest)) = some o) (h : r.Ends o inside closed rest)
    (hk : o.kind.isLiteral = true) :
    r.outline (o.token ++ (inside ++ rest)) =
      (r.outline rest).push (.literal o.kind (o.token ++ inside)) := by
  have hc : ¬ o.kind.isComment = true := by simp [Kind.not_comment_of_literal hk]
  rw [outline_eq, lexemes_construct ho h, List.foldr_cons, ← outline_eq, Outline.pushFragment,
    if_neg hc, if_pos hk]

theorem outline_code_run {code rest : Text} (h : r.Code code rest) :
    r.outline (code ++ rest) = code.foldr Outline.pushCode (r.outline rest) := by
  by_cases hne : code = []
  · rw [hne]; rfl
  · rw [outline_eq, lexemes_code hne h, List.foldr_cons, ← outline_eq]
    rfl

theorem outline_code {c : Char} {s : Text} (h : r.opener? (c :: s) = none) :
    r.outline (c :: s) = (r.outline s).pushCode c := by
  obtain ⟨code, rest, rfl, hcode, hcons⟩ := exists_code h
  rw [← List.cons_append, outline_code_run hcons, outline_code_run hcode, List.foldr_cons]

end Rules
end Gloss
