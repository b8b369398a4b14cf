import Gloss.Proofs.Lexeme
import Gloss.Scan
/-!
# Glyphs

A glyph is a character of a text together with the kind of the span it stands
in. `Rules.glyphs` are the glyphs of a text as it is scanned; `glyphs_code` and
`glyphs_construct` give them from the front of the text on. Ink is what has to
survive stripping: the text of literals and the solid characters of code.
-/

namespace Gloss

/-- A character and the kind of the span it stands in. -/
structure Glyph where
  kind : Kind
  char : Char
  deriving DecidableEq, Repr

/-- The text as glyphs of one kind. -/
def Text.glyphs (kind : Kind) (s : Text) : List Glyph := s.map (Glyph.mk kind)

/-- The text that glyphs spell. -/
def Text.ofGlyphs (gs : List Glyph) : Text := gs.map (·.char)

namespace Glyph

/-- A character of a literal, or a solid one of code. -/
def isInk (g : Glyph) : Bool := g.kind.isLiteral || (g.kind == .code && !Text.isWhite g.char)

/-- White space in code. -/
def isBlank (g : Glyph) : Bool := g.kind == .code && Text.isWhite g.char

theorem isInk_of_isBlank {g : Glyph} (h : g.isBlank = true) : g.isInk = false := by
  simp only [isBlank, Bool.and_eq_true, beq_iff_eq] at h
  simp [isInk, h.1, h.2, Kind.isLiteral]

end Glyph

/-- The glyphs of a fragment. -/
def Fragment.glyphs (f : Fragment) : List Glyph := f.text.glyphs f.kind

/-- The glyphs of a text. -/
def Rules.glyphs (r : Rules) (source : Text) : List Glyph :=
  (r.fragments source).flatMap Fragment.glyphs

/-! ## Texts and glyphs -/

namespace Text
variable {kind : Kind}

@[simp] theorem glyphs_nil : glyphs kind [] = [] := rfl

@[simp] theorem glyphs_cons {c : Char} {s : Text} :
    glyphs kind (c :: s) = ⟨kind, c⟩ :: glyphs kind s :=
  rfl

@[simp] theorem glyphs_append {s t : Text} :
    glyphs kind (s ++ t) = glyphs kind s ++ glyphs kind t :=
  List.map_append

@[simp] theorem glyphs_eq_nil {s : Text} : glyphs kind s = [] ↔ s = [] := List.map_eq_nil_iff

theorem mem_glyphs {g : Glyph} {s : Text} : g ∈ glyphs kind s ↔ g.kind = kind ∧ g.char ∈ s := by
  constructor
  · intro h
    obtain ⟨c, hc, rfl⟩ := List.mem_map.1 h
    exact ⟨rfl, hc⟩
  · rintro ⟨rfl, h⟩
    exact List.mem_map.2 ⟨g.char, h, rfl⟩

@[simp] theorem ofGlyphs_nil : ofGlyphs [] = [] := rfl

@[simp] theorem ofGlyphs_cons {g : Glyph} {gs : List Glyph} :
    ofGlyphs (g :: gs) = g.char :: ofGlyphs gs := rfl

@[simp] theorem ofGlyphs_append {gs hs : List Glyph} :
    ofGlyphs (gs ++ hs) = ofGlyphs gs ++ ofGlyphs hs := List.map_append

@[simp] theorem ofGlyphs_eq_nil {gs : List Glyph} : ofGlyphs gs = [] ↔ gs = [] :=
  List.map_eq_nil_iff

@[simp] theorem ofGlyphs_glyphs {s : Text} : ofGlyphs (glyphs kind s) = s := by
  simp [ofGlyphs, glyphs, Function.comp_def]

theorem ink_of_literal (h : kind.isLiteral = true) {s : Text} {g : Glyph} (hg : g ∈ glyphs kind s) :
    g.isInk = true := by
  simp [Glyph.isInk, (mem_glyphs.1 hg).1, h]

theorem isWhite_of_isPad {c : Char} (h : isPad c = true) : isWhite c = true := by
  simp only [isPad, Bool.or_eq_true, beq_iff_eq] at h
  rcases h with rfl | rfl <;> decide

theorem ink_or_blank {s : Text} : ∀ g ∈ glyphs .code s, g.isInk = true ∨ g.isBlank = true := by
  intro g hg
  have hk := (mem_glyphs.1 hg).1
  cases hw : isWhite g.char <;> simp [Glyph.isInk, Glyph.isBlank, hk, hw]

theorem gap_of_comment (h : kind.isComment = true) {s : Text} {g : Glyph} (hg : g ∈ glyphs kind s) :
    g.isInk = false := by
  have hk := (mem_glyphs.1 hg).1
  cases kind <;> simp [Kind.isComment] at h <;> simp [Glyph.isInk, hk, Kind.isLiteral]

end Text

/-! ## The glyphs of a text from its front -/

namespace Rules
variable {r : Rules}

/-- The glyphs of a lexeme are those of the fragment it becomes. -/
theorem flatMap_glyphs_layOut (offset : Nat) (ls : List Lexeme) :
    (layOut offset ls).flatMap Fragment.glyphs = ls.flatMap fun l => l.text.glyphs l.kind := by
  induction ls generalizing offset with
  | nil => rfl
  | cons l ls ih => simp only [layOut, List.flatMap_cons, ih, Fragment.glyphs]

theorem glyphs_eq (s : Text) : r.glyphs s = (r.lexemes s).flatMap fun l => l.text.glyphs l.kind :=
  flatMap_glyphs_layOut 0 (r.lexemes s)

@[simp] theorem glyphs_nil : r.glyphs [] = [] := by rw [glyphs_eq, lexemes_nil]; rfl

theorem glyphs_construct {o : Opener} {inside rest : Text} {closed : Bool}
    (ho : r.opener? (o.token ++ (inside ++ rest)) = some o) (h : r.Ends o inside closed rest) :
    r.glyphs (o.token ++ (inside ++ rest)) =
      Text.glyphs o.kind (o.token ++ inside) ++ r.glyphs rest := by
  rw [glyphs_eq, lexemes_construct ho h, List.flatMap_cons, ← glyphs_eq]

theorem glyphs_code_run {code rest : Text} (h : r.Code code rest) :
    r.glyphs (code ++ rest) = Text.glyphs .code code ++ r.glyphs rest := by
  by_cases hne : code = []
  · rw [hne]; rfl
  · rw [glyphs_eq, lexemes_code hne h, List.flatMap_cons, ← glyphs_eq]

/-- One character of code at the front, whatever run it is part of. -/
theorem glyphs_code {c : Char} {s : Text} (h : r.opener? (c :: s) = none) :
    r.glyphs (c :: s) = ⟨.code, c⟩ :: r.glyphs s := by
  obtain ⟨code, rest, rfl, hcode, hcons⟩ := exists_code h
  rw [← List.cons_append, glyphs_code_run hcons, glyphs_code_run hcode, Text.glyphs_cons,
    List.cons_append]

/-- The glyphs of a text spell it. -/
theorem ofGlyphs_glyphs (s : Text) : Text.ofGlyphs (r.glyphs s) = s := by
  induction s using readingChars r with
  | nil => rw [glyphs_nil]; rfl
  | code c rest ho ih => rw [glyphs_code ho, Text.ofGlyphs_cons, ih]
  | construct o inside closed rest ho he ih =>
    rw [glyphs_construct ho he, Text.ofGlyphs_append, Text.ofGlyphs_glyphs, ih, List.append_assoc]

/-- A text none of whose characters stands in a comment has no comment. -/
theorem not_comment_of_glyphs {s : Text} (h : ∀ g ∈ r.glyphs s, g.kind.isComment = false)
    {f : Fragment} (hf : f ∈ r.fragments s) : f.kind.isComment = false := by
  have hne : ∀ (offset : Nat) (ls : List Lexeme), (∀ l ∈ ls, l.text ≠ []) →
      ∀ f ∈ layOut offset ls, f.text ≠ [] := by
    intro offset ls
    induction ls generalizing offset with
    | nil => simp [layOut]
    | cons l ls ih =>
      intro hl f hf
      rcases List.mem_cons.1 hf with rfl | hf
      · exact hl l (List.mem_cons_self ..)
      · exact ih _ (fun l hm => hl l (List.mem_cons_of_mem _ hm)) f hf
  obtain ⟨c, t, ht⟩ := List.exists_cons_of_ne_nil (hne 0 _ (fun l => text_ne_nil) f hf)
  exact h ⟨f.kind, c⟩ (List.mem_flatMap.2 ⟨f, hf, Text.mem_glyphs.2 ⟨rfl, by simp [ht]⟩⟩)

end Rules
end Gloss
