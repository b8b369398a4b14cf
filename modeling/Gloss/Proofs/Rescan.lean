import Gloss.Proofs.Alignment
import Gloss.Proofs.Skeleton
/-!
# Scanning what was written

A text whose glyphs are aligned with those of `s` is scanned the way `s` was:
every character comes back with the kind it was written with, and the literals
and words are those of `s` (`rescanned`). Nothing opens at a seam, since a token
has no white space in it, and no literal runs on, since what stopped it stands
there still.
-/

namespace Gloss.Rules
variable {r : Rules}

open Glyph (Aligned Blank Gap StopsLike)

/-! ## What opens, and where it ends -/

theorem opener?_none_of_solid {s t : Text} (h : r.opener? s = none)
    (hst : ∀ u : Text, u.Solid → u <+: t → u <+: s) : r.opener? t = none := by
  rw [opener?_eq_none_iff] at h ⊢
  intro o ho hp
  exact h o ho (hst o.token (solid_token ho) hp)

theorem opener?_some_of_solid {s t : Text} {o : Opener} (h : r.opener? s = some o)
    (ht : o.token <+: t) (hst : ∀ u : Text, u.Solid → u <+: t → u <+: s) :
    r.opener? t = some o := by
  rw [opener?_eq_some_iff] at h ⊢
  exact ⟨h.1, ht, fun p hp hpt => h.2.2 p hp (hst p.token (solid_token hp) hpt)⟩

/-- What stops a literal in the old text stops it in the new one. -/
theorem stopsLike_ofGlyphs {s : Text} {ω : List Glyph} (h : StopsLike (r.glyphs s) ω) :
    s.StopsLike (Text.ofGlyphs ω) := by
  refine ⟨?_, ?_, ?_⟩
  · rintro rfl
    rw [h.nil glyphs_nil]
    rfl
  · rintro ⟨t, rfl⟩
    have hg : r.glyphs (['\n'] ++ t) = Text.glyphs .code ['\n'] ++ r.glyphs t :=
      glyphs_code (opener?_white (by decide))
    obtain ⟨ω', rfl⟩ := h.lineFeed ⟨_, hg.symm⟩
    exact ⟨Text.ofGlyphs ω', rfl⟩
  · rintro ⟨t, rfl⟩
    have hg : r.glyphs (['\r', '\n'] ++ t) = Text.glyphs .code ['\r', '\n'] ++ r.glyphs t := by
      rw [List.cons_append, glyphs_code (opener?_white (by decide)), List.cons_append,
        glyphs_code (opener?_white (by decide))]
      rfl
    obtain ⟨ω', rfl⟩ := h.returnFeed ⟨_, hg.symm⟩
    exact ⟨Text.ofGlyphs ω', rfl⟩

theorem ends_of_stopsLike {o : Opener} {inside rest rest' : Text} {closed : Bool}
    (h : r.Ends o inside closed rest) (hk : o.kind.isLiteral = true) (hr : rest.StopsLike rest') :
    r.Ends o inside closed rest' := by
  rw [ends_iff_of_literal hk] at h ⊢
  exact h.of_rest fun _ => hr

/-! ## The new text from its front -/

/-- The text that `ω` spells is scanned like `s`. Where ink stands in front of
both, also the first gaps agree. -/
structure Rescanned (r : Rules) (free : Bool) (s : Text) (ω : List Glyph) : Prop where
  glyphs : r.glyphs (Text.ofGlyphs ω) = ω
  items : (r.outline (Text.ofGlyphs ω)).items = (r.outline s).items
  gap : free = false → (r.outline s).items ≠ [] →
    (r.outline (Text.ofGlyphs ω)).gap = (r.outline s).gap

theorem opener?_blank {g : Glyph} (hg : g.isBlank = true) (t : Text) :
    r.opener? (g.char :: t) = none := by
  simp only [Glyph.isBlank, Bool.and_eq_true] at hg
  exact opener?_white hg.2

theorem glyphs_blank {g : Glyph} (hg : g.isBlank = true) (t : Text) :
    r.glyphs (g.char :: t) = g :: r.glyphs t := by
  rw [glyphs_code (opener?_blank hg t)]
  simp only [Glyph.isBlank, Bool.and_eq_true, beq_iff_eq] at hg
  rw [← hg.1]

theorem outline_blank {g : Glyph} (hg : g.isBlank = true) (t : Text) :
    r.outline (g.char :: t) = (r.outline t).separate := by
  rw [outline_code (opener?_blank hg t), Outline.pushCode, if_pos]
  simp only [Glyph.isBlank, Bool.and_eq_true] at hg
  exact hg.2

namespace Rescanned
variable {free : Bool} {s : Text} {δ ω : List Glyph}

theorem weaken (h : r.Rescanned false s ω) : r.Rescanned free s ω :=
  ⟨h.glyphs, h.items, fun _ => h.gap rfl⟩

/-- Blanks where no ink stands in front. -/
theorem blanks (hδ : Blank δ) (h : r.Rescanned true s ω) : r.Rescanned true s (δ ++ ω) := by
  induction δ with
  | nil => exact h
  | cons b δ ih =>
    obtain ⟨hb, hδ⟩ := Glyph.blank_cons.1 hδ
    have ih := ih hδ
    refine ⟨?_, ?_, nofun⟩
    · rw [List.cons_append, Text.ofGlyphs_cons, glyphs_blank hb, ih.glyphs]
    · rw [List.cons_append, Text.ofGlyphs_cons, outline_blank hb]
      exact ih.items

/-- Blanks in front of ink, where there may be any. -/
theorem behind (hδ : Blank δ) (hnil : free = false → δ = []) (h : r.Rescanned false s ω) :
    r.Rescanned free s (δ ++ ω) := by
  cases free with
  | true => exact h.weaken.blanks hδ
  | false =>
    rw [hnil rfl]
    exact h

theorem nil (hδ : Blank δ) : r.Rescanned free [] δ := by
  have hnil : r.Rescanned true [] [] := ⟨glyphs_nil, rfl, nofun⟩
  have h := hnil.blanks hδ
  rw [List.append_nil] at h
  exact ⟨h.glyphs, h.items, fun _ hi => absurd (by rw [outline_nil]) hi⟩

theorem alike (h : r.Rescanned false s ω) :
    (r.outline (Text.ofGlyphs ω)).Alike (r.outline s) :=
  ⟨h.items, fun hne => h.gap rfl (h.items ▸ hne)⟩

end Rescanned

/-! ## One lexeme after the other -/

/-- White space or a comment in the old text. -/
theorem rescanned_gap {free : Bool} {s rest : Text} {π ω : List Glyph} (hπ : Gap π) (hne : π ≠ [])
    (hs : r.glyphs s = π ++ r.glyphs rest) (ho : r.outline s = (r.outline rest).separate)
    (h : Aligned free (r.glyphs s) ω) (ih : r.Rescanned true rest ω) : r.Rescanned free s ω := by
  have hitems : (r.outline (Text.ofGlyphs ω)).items = (r.outline s).items := by
    rw [ih.items, ho]
    rfl
  refine ⟨ih.glyphs, hitems, ?_⟩
  rintro rfl hne'
  rw [hs] at h
  rcases h.blank_of_gap hπ hne with hb | ⟨b, ω', rfl, hb⟩
  · have hempty : r.Rescanned true [] ω := .nil hb
    rw [← hitems, hempty.items, outline_nil] at hne'
    exact absurd rfl hne'
  · rw [ho, Text.ofGlyphs_cons, outline_blank hb]
    rfl

/-- A solid character of code. -/
theorem rescanned_solid {c : Char} {rest : Text} {ω : List Glyph}
    (ho : r.opener? (c :: rest) = none) (hc : Text.isWhite c = false)
    (h : Aligned false (r.glyphs rest) ω) (ih : r.Rescanned false rest ω) :
    r.Rescanned false (c :: rest) (⟨.code, c⟩ :: ω) := by
  have hink : (Glyph.mk .code c).isInk = true := by simp [Glyph.isInk, hc]
  have ho' : r.opener? (c :: Text.ofGlyphs ω) = none := by
    refine opener?_none_of_solid ho fun u hu hp => ?_
    have hcons : Aligned false (⟨.code, c⟩ :: r.glyphs rest) (⟨.code, c⟩ :: ω) := h.cons_ink hink
    have := hcons.of_solid hu hp
    rwa [Text.ofGlyphs_cons, ofGlyphs_glyphs] at this
  have hout : r.outline (c :: Text.ofGlyphs ω) = r.outline (c :: rest) := by
    rw [outline_code ho, outline_code ho', Outline.pushCode, if_neg (by simp [hc]),
      Outline.pushCode, if_neg (by simp [hc])]
    exact Outline.pushChar_congr c ih.alike
  refine ⟨?_, by rw [Text.ofGlyphs_cons, hout], fun _ _ => by rw [Text.ofGlyphs_cons, hout]⟩
  rw [Text.ofGlyphs_cons, glyphs_code ho', ih.glyphs]

theorem rescanned_literal {o : Opener} {inside rest : Text} {closed : Bool} {ω : List Glyph}
    (ho : r.opener? (o.token ++ (inside ++ rest)) = some o) (he : r.Ends o inside closed rest)
    (hk : o.kind.isLiteral = true) (h : Aligned false (r.glyphs rest) ω)
    (ih : r.Rescanned false rest ω) :
    r.Rescanned false (o.token ++ (inside ++ rest))
      (Text.glyphs o.kind (o.token ++ inside) ++ ω) := by
  have hspell : Text.ofGlyphs (Text.glyphs o.kind (o.token ++ inside) ++ ω) =
      o.token ++ (inside ++ Text.ofGlyphs ω) := by
    rw [Text.ofGlyphs_append, Text.ofGlyphs_glyphs, List.append_assoc]
  have ho' : r.opener? (o.token ++ (inside ++ Text.ofGlyphs ω)) = some o := by
    refine opener?_some_of_solid ho (List.prefix_append ..) fun u hu hp => ?_
    have hsame := h.same fun g hg => .inl (Text.ink_of_literal hk (s := o.token ++ inside) hg)
    rw [← hspell] at hp
    have := hsame.of_solid hu hp
    rwa [Text.ofGlyphs_append, Text.ofGlyphs_glyphs, ofGlyphs_glyphs, List.append_assoc] at this
  have he' := ends_of_stopsLike he hk (stopsLike_ofGlyphs h.stopsLike)
  have hout : r.outline (o.token ++ (inside ++ Text.ofGlyphs ω)) =
      r.outline (o.token ++ (inside ++ rest)) := by
    rw [outline_literal ho he hk, outline_literal ho' he' hk]
    exact Outline.push_congr _ ih.alike
  refine ⟨?_, by rw [hspell, hout], fun _ _ => by rw [hspell, hout]⟩
  rw [hspell, glyphs_construct ho' he', ih.glyphs]

/-- A text written for `s` is scanned like `s`. -/
theorem rescanned {free : Bool} {s : Text} {ω : List Glyph} (h : Aligned free (r.glyphs s) ω) :
    r.Rescanned free s ω := by
  -- along the old text: the alignment says what the new one has in its place
  induction s using readingChars r generalizing free ω with
  | nil =>
    rw [glyphs_nil] at h
    generalize hτ : ([] : List Glyph) = τ at h
    cases h with
    | last hs => exact .nil hs.blank
    | cons => simp at hτ
  | code c rest ho ih =>
    have hg := glyphs_code ho
    cases hc : Text.isWhite c with
    | true =>
      have hgap : Gap [Glyph.mk .code c] := by simp [Gap, Glyph.isInk, Kind.isLiteral, hc]
      have hsep : r.outline (c :: rest) = (r.outline rest).separate := by
        rw [outline_code ho, Outline.pushCode, if_pos hc]
      refine rescanned_gap hgap (by simp) hg hsep h (ih ?_)
      rw [hg] at h
      exact h.of_gap hgap
    | false =>
      -- what is written for the gap in front of the ink is there before it
      have hink : (Glyph.mk .code c).isInk = true := by simp [Glyph.isInk, hc]
      rw [hg] at h
      obtain ⟨δ, ω', rfl, hδ, hnil, h⟩ := h.of_ink hink
      exact (rescanned_solid ho hc h (ih h)).behind hδ hnil
  | construct o inside closed rest ho he ih =>
    have hm := (mem_of_opener? ho).1
    have hg := glyphs_construct ho he
    rcases comment_or_literal hm with hk | hk
    · have hgap : Gap (Text.glyphs o.kind (o.token ++ inside)) := fun g => Text.gap_of_comment hk
      refine rescanned_gap hgap (by simp [token_ne_nil hm]) hg (outline_comment ho he hk) h (ih ?_)
      rw [hg] at h
      exact h.of_gap hgap
    · rw [hg] at h
      obtain ⟨δ, ω', rfl, hδ, hnil, h⟩ :=
        h.of_inks (fun g => Text.ink_of_literal hk) (by simp [token_ne_nil hm])
      exact (rescanned_literal ho he hk h (ih h)).behind hδ hnil

end Gloss.Rules
