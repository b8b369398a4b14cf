import Gloss.Proofs.Glyph
/-!
# Glyphs before and after

What stripping may do to a text, said about its glyphs: the ink stays as it is,
and each gap between ink (white space and comments) becomes blanks. `Aligned`
lists the two texts side by side. Where ink stands in front of a gap, something
of the gap has to remain if ink follows, and a line end or the end of the text
at the front of the gap has to remain there, since a literal may end with it.

The first half takes an alignment apart from its front, as a scan of the new
text needs it; the second half (`Aligned.same`, `glue`, `swap`) builds one.
-/

namespace Gloss
namespace Glyph

/-- White space and comments. -/
def Gap (γ : List Glyph) : Prop := ∀ g ∈ γ, g.isInk = false

/-- White space in code. -/
def Blank (δ : List Glyph) : Prop := ∀ g ∈ δ, g.isBlank = true

/-- `Text.StopsLike` for the glyphs of code. -/
structure StopsLike (γ δ : List Glyph) : Prop where
  nil : γ = [] → δ = []
  lineFeed : Text.glyphs .code ['\n'] <+: γ → Text.glyphs .code ['\n'] <+: δ
  returnFeed : Text.glyphs .code ['\r', '\n'] <+: γ → Text.glyphs .code ['\r', '\n'] <+: δ

/-- A gap and the blanks that are written for it. Nothing is asked of their front
where they stand at the front of a text or a line. -/
structure Seam (free : Bool) (γ δ : List Glyph) : Prop where
  gap : Gap γ
  blank : Blank δ
  stops : free = true ∨ StopsLike γ δ

/-- The glyphs of a text and those of the text that is written for it. `free`: no
ink stands in front. -/
inductive Aligned : Bool → List Glyph → List Glyph → Prop
  | last {free : Bool} {γ δ : List Glyph} : Seam free γ δ → Aligned free γ δ
  | cons {free : Bool} {γ δ σ ω : List Glyph} {i : Glyph} : Seam free γ δ →
      (free = true ∨ (δ = [] → γ = [])) → i.isInk = true → Aligned false σ ω →
      Aligned free (γ ++ i :: σ) (δ ++ i :: ω)

/-! ## Gaps and blanks -/

theorem gap_nil : Gap [] := by simp [Gap]

theorem blank_nil : Blank [] := by simp [Blank]

theorem gap_append {γ δ : List Glyph} : Gap (γ ++ δ) ↔ Gap γ ∧ Gap δ := by
  simp only [Gap, List.mem_append]
  exact ⟨fun h => ⟨fun g hg => h g (.inl hg), fun g hg => h g (.inr hg)⟩,
    fun h g hg => hg.elim (h.1 g) (h.2 g)⟩

theorem blank_append {γ δ : List Glyph} : Blank (γ ++ δ) ↔ Blank γ ∧ Blank δ := by
  simp only [Blank, List.mem_append]
  exact ⟨fun h => ⟨fun g hg => h g (.inl hg), fun g hg => h g (.inr hg)⟩,
    fun h g hg => hg.elim (h.1 g) (h.2 g)⟩

theorem gap_cons {g : Glyph} {γ : List Glyph} : Gap (g :: γ) ↔ g.isInk = false ∧ Gap γ := by
  simp [Gap]

theorem blank_cons {g : Glyph} {γ : List Glyph} : Blank (g :: γ) ↔ g.isBlank = true ∧ Blank γ := by
  simp [Blank]

theorem Blank.gap {δ : List Glyph} (h : Blank δ) : Gap δ :=
  fun g hg => isInk_of_isBlank (h g hg)

theorem blank_glyphs {s : Text} (h : ∀ c ∈ s, Text.isWhite c = true) : Blank (s.glyphs .code) := by
  intro g hg
  obtain ⟨hk, hc⟩ := Text.mem_glyphs.1 hg
  simp [isBlank, hk, h _ hc]

theorem blank_of_pads {s : Text} (h : ∀ c ∈ s, Text.isPad c = true) : Blank (s.glyphs .code) :=
  blank_glyphs fun c hc => Text.isWhite_of_isPad (h c hc)

/-- There is no ink in a gap. -/
theorem Gap.filter_isInk {γ : List Glyph} (h : Gap γ) : γ.filter isInk = [] :=
  List.filter_eq_nil_iff.2 fun g hg => by simp [h g hg]

theorem not_comment_of_isInk {g : Glyph} (h : g.isInk = true) : g.kind.isComment = false := by
  obtain ⟨kind, c⟩ := g
  cases kind <;> simp_all [isInk, Kind.isComment, Kind.isLiteral]

theorem not_comment_of_isBlank {g : Glyph} (h : g.isBlank = true) : g.kind.isComment = false := by
  simp only [isBlank, Bool.and_eq_true, beq_iff_eq] at h
  rw [h.1]
  rfl

/-- Ink is no line feed of code. -/
theorem ne_of_isInk {g : Glyph} (h : g.isInk = true) {c : Char} (hc : Text.isWhite c = true) :
    g ≠ ⟨.code, c⟩ := by
  rintro rfl
  simp [isInk, Kind.isLiteral, hc] at h

/-- An item of a list in two parts is in the first one, or in the second one with
what stands before it there. -/
theorem append_eq_append_cons {α : Type} {a τ γ σ : List α} {i : α} (h : a ++ τ = γ ++ i :: σ) :
    (∃ c, a = γ ++ i :: c ∧ σ = c ++ τ) ∨ ∃ c, γ = a ++ c ∧ τ = c ++ i :: σ := by
  rcases List.append_eq_append_iff.1 h with ⟨c, rfl, hc⟩ | ⟨c, rfl, hc⟩
  · exact .inr ⟨c, rfl, hc⟩
  · rcases c with _ | ⟨j, c⟩
    · exact .inr ⟨[], by simp, by simpa using hc.symm⟩
    · obtain ⟨rfl, rfl⟩ := List.cons.inj hc
      exact .inl ⟨c, rfl, rfl⟩

/-- Ink in the middle of a text: it stands before or behind any cut. -/
theorem split_ink {γ σ a b : List Glyph} {i : Glyph} (hi : i.isInk = true) (ha : Gap a)
    (h : γ ++ i :: σ = a ++ b) : ∃ c, γ = a ++ c ∧ b = c ++ i :: σ := by
  rcases append_eq_append_cons h.symm with ⟨c, rfl, -⟩ | hc
  · have := ha i (by simp)
    rw [hi] at this
    cases this
  · exact hc

/-- No solid text starts with a blank. -/
theorem nil_of_blank {t : Text} {δ : List Glyph} (ht : t.Solid) (hδ : Blank δ) (hne : δ ≠ [])
    (ω : List Glyph) (hp : t <+: Text.ofGlyphs (δ ++ ω)) : t = [] := by
  obtain ⟨b, δ, rfl⟩ := List.exists_cons_of_ne_nil hne
  rcases t with _ | ⟨c, t⟩
  · rfl
  · have hb := (blank_cons.1 hδ).1
    simp only [List.cons_append, Text.ofGlyphs_cons, List.cons_prefix_cons] at hp
    rw [isBlank, ← hp.1, ht c (by simp), Bool.and_false] at hb
    cases hb

theorem StopsLike.refl (γ : List Glyph) : StopsLike γ γ := ⟨id, id, id⟩

theorem StopsLike.cons {γ δ : List Glyph} (h : StopsLike γ δ) (b : Glyph) :
    StopsLike (b :: γ) (b :: δ) := by
  refine ⟨by simp, ?_, ?_⟩
  · intro hp
    simpa [List.cons_prefix_cons] using hp
  · intro hp
    simp only [Text.glyphs_cons, Text.glyphs_nil, List.cons_prefix_cons] at hp ⊢
    exact ⟨hp.1, h.lineFeed hp.2⟩

/-- A gap with a comment and without a line feed before it has no line end at its
front. -/
theorem stopsLike_of_comment {a γ δ : List Glyph} (hlf : ∀ x ∈ a, x ≠ ⟨.code, '\n'⟩)
    (hk : ∃ x ∈ a, x.kind ≠ .code) : StopsLike (a ++ γ) δ := by
  obtain ⟨x, hx, hk⟩ := hk
  match a with
  | [] => simp at hx
  | [g] =>
    obtain rfl : x = g := by simpa using hx
    refine ⟨by simp, fun hp => ?_, fun hp => ?_⟩
    all_goals
      have := (List.cons_prefix_cons.1 hp).1
      rw [← this] at hk
      exact absurd rfl hk
  | g :: g' :: a =>
    refine ⟨by simp, fun hp => ?_, fun hp => ?_⟩
    · exact absurd (List.cons_prefix_cons.1 hp).1.symm (hlf g (by simp))
    · have := (List.cons_prefix_cons.1 (List.cons_prefix_cons.1 hp).2).1
      exact absurd this.symm (hlf g' (by simp))

/-- A gap stops like its blanks when the same ink follows both. -/
theorem StopsLike.append_ink {γ δ σ ω : List Glyph} {i : Glyph} (h : StopsLike γ δ)
    (hi : i.isInk = true) : StopsLike (γ ++ i :: σ) (δ ++ i :: ω) := by
  have hlf := ne_of_isInk hi (c := '\n') (by decide)
  have hcr := ne_of_isInk hi (c := '\r') (by decide)
  refine ⟨by simp, fun hp => ?_, fun hp => ?_⟩
  · match γ with
    | [] => exact absurd (by simpa using hp) hlf.symm
    | g :: γ =>
      refine (h.lineFeed ?_).trans (List.prefix_append ..)
      simpa [List.cons_prefix_cons] using hp
  · match γ with
    | [] => exact absurd (List.cons_prefix_cons.1 hp).1 hcr.symm
    | [g] =>
      have := (List.cons_prefix_cons.1 (List.cons_prefix_cons.1 hp).2).1
      exact absurd this hlf.symm
    | g :: h' :: γ =>
      refine (h.returnFeed ?_).trans (List.prefix_append ..)
      simpa [List.cons_prefix_cons] using hp

/-- In a seam another gap may have stood, one that holds a comment. -/
theorem Seam.swap {free : Bool} {a g g' γ δ : List Glyph} (hg' : Gap g') (hk : ∃ x ∈ g', x.kind ≠ .code)
    (hlf : ∀ x ∈ a ++ g', x ≠ ⟨.code, '\n'⟩) (hs : Seam free (a ++ (g ++ γ)) δ) :
    Seam free (a ++ (g' ++ γ)) δ := by
  have hgap := gap_append.1 hs.gap
  refine ⟨gap_append.2 ⟨hgap.1, gap_append.2 ⟨hg', (gap_append.1 hgap.2).2⟩⟩, hs.blank, .inr ?_⟩
  rw [← List.append_assoc]
  exact stopsLike_of_comment hlf (hk.imp fun x hx => ⟨by simp [hx.1], hx.2⟩)

namespace Aligned
variable {free : Bool} {σ ω : List Glyph} {i : Glyph}

/-! ## Taking an alignment apart -/

theorem stopsLike (h : Aligned false σ ω) : StopsLike σ ω := by
  cases h with
  | last hs => exact hs.stops.resolve_left (by simp)
  | cons hs _ hi _ => exact (hs.stops.resolve_left (by simp)).append_ink hi

/-- What is written holds ink and blanks only. -/
theorem not_comment (h : Aligned free σ ω) : ∀ g ∈ ω, g.kind.isComment = false := by
  induction h with
  | last hs => exact fun g hg => not_comment_of_isBlank (hs.blank g hg)
  | cons hs _ hi _ ih =>
    intro g hg
    rcases List.mem_append.1 hg with hg | hg
    · exact not_comment_of_isBlank (hs.blank g hg)
    · rcases List.mem_cons.1 hg with rfl | hg
      · exact not_comment_of_isInk hi
      · exact ih g hg

/-- Ink at the front comes behind blanks at most, and right away behind ink. -/
theorem of_ink (h : Aligned free (i :: σ) ω) (hi : i.isInk = true) :
    ∃ δ ω', ω = δ ++ i :: ω' ∧ Blank δ ∧ (free = false → δ = []) ∧ Aligned false σ ω' := by
  generalize hτ : i :: σ = τ at h
  cases h with
  | last hs =>
    have := hs.gap i (by simp [← hτ])
    rw [hi] at this
    cases this
  | @cons _ γ δ σ₁ ω₁ j hs hsep hj h =>
    rcases γ with _ | ⟨g, γ⟩
    · obtain ⟨rfl, rfl⟩ := List.cons.inj hτ
      refine ⟨δ, ω₁, rfl, hs.blank, ?_, h⟩
      rintro rfl
      exact (hs.stops.resolve_left (by simp)).nil rfl
    · obtain ⟨rfl, -⟩ := List.cons.inj hτ
      have := hs.gap i (by simp)
      rw [hi] at this
      cases this

/-- A run of ink at the front. -/
theorem of_inks {l : List Glyph} (hl : ∀ g ∈ l, g.isInk = true) (hne : l ≠ [])
    (h : Aligned free (l ++ σ) ω) :
    ∃ δ ω', ω = δ ++ (l ++ ω') ∧ Blank δ ∧ (free = false → δ = []) ∧ Aligned false σ ω' := by
  induction l generalizing free ω with
  | nil => exact absurd rfl hne
  | cons i l ih =>
    obtain ⟨δ, ω', rfl, hδ, hnil, h⟩ := of_ink h (hl i (by simp))
    by_cases he : l = []
    · exact ⟨δ, ω', by simp [he], hδ, hnil, by simpa [he] using h⟩
    · obtain ⟨δ', ω'', rfl, -, hnil', h'⟩ := ih (fun g hg => hl g (by simp [hg])) he h
      exact ⟨δ, ω'', by simp [hnil' rfl], hδ, hnil, h'⟩

/-- Behind a gap nothing is asked of the front any more. -/
theorem of_gap {π : List Glyph} (hπ : Gap π) (h : Aligned free (π ++ σ) ω) : Aligned true σ ω := by
  generalize hτ : π ++ σ = τ at h
  cases h with
  | last hs =>
    subst hτ
    exact .last ⟨(gap_append.1 hs.gap).2, hs.blank, .inl rfl⟩
  | cons hs _ hi h =>
    obtain ⟨γ, rfl, rfl⟩ := split_ink hi hπ hτ.symm
    exact .cons ⟨(gap_append.1 hs.gap).2, hs.blank, .inl rfl⟩ (.inl rfl) hi h

theorem weaken (h : Aligned false σ ω) : Aligned free σ ω := by
  cases free with
  | false => exact h
  | true =>
    have h' : Aligned false ([] ++ σ) ω := h
    exact h'.of_gap gap_nil

/-- A gap behind ink leaves a blank in front of the next ink. -/
theorem blank_of_gap {π : List Glyph} (hπ : Gap π) (hne : π ≠ []) (h : Aligned false (π ++ σ) ω) :
    Blank ω ∨ ∃ b ω', ω = b :: ω' ∧ b.isBlank = true := by
  generalize hτ : π ++ σ = τ at h
  cases h with
  | last hs => exact .inl hs.blank
  | @cons _ γ δ σ₁ ω₁ j hs hsep hi h =>
    obtain ⟨γ, rfl, rfl⟩ := split_ink hi hπ hτ.symm
    rcases δ with _ | ⟨b, δ⟩
    · exact absurd (List.append_eq_nil_iff.1 (hsep.resolve_left (by simp) rfl)).1 hne
    · exact .inr ⟨b, _, rfl, hs.blank b (by simp)⟩

/-- A solid text at the front of what is written stood at the front before: no
token comes about where text is joined. -/
theorem of_solid {t : Text} (ht : t.Solid) (h : Aligned false σ ω) (hp : t <+: Text.ofGlyphs ω) :
    t <+: Text.ofGlyphs σ := by
  generalize hf : false = free at h
  induction h generalizing t with
  | @last free γ δ hs =>
    by_cases hne : δ = []
    · rw [hne] at hp
      rw [List.prefix_nil.1 hp]
      exact List.nil_prefix
    · rw [nil_of_blank ht hs.blank hne [] (by simpa using hp)]
      exact List.nil_prefix
  | @cons free γ δ σ ω i hs hsep hi h ih =>
    subst hf
    by_cases hne : δ = []
    · subst hne
      rw [hsep.resolve_left (by simp) rfl]
      rcases t with _ | ⟨c, t⟩
      · exact List.nil_prefix
      · simp only [List.nil_append, Text.ofGlyphs_cons, List.cons_prefix_cons] at hp ⊢
        exact ⟨hp.1, ih (fun d hd => ht d (by simp [hd])) hp.2 rfl⟩
    · rw [nil_of_blank ht hs.blank hne _ hp]
      exact List.nil_prefix

/-! ## Putting an alignment together -/

theorem cons_ink (hi : i.isInk = true) (h : Aligned false σ ω) :
    Aligned free (i :: σ) (i :: ω) := by
  have hnil : Seam free [] [] := ⟨gap_nil, blank_nil, .inr (.refl [])⟩
  exact cons hnil (.inr fun _ => rfl) hi h

theorem cons_blank {b : Glyph} (hb : b.isBlank = true) (h : Aligned false σ ω) :
    Aligned false (b :: σ) (b :: ω) := by
  have hseam : ∀ {γ δ : List Glyph}, Seam false γ δ → Seam false (b :: γ) (b :: δ) := by
    intro γ δ hs
    exact ⟨gap_cons.2 ⟨isInk_of_isBlank hb, hs.gap⟩, blank_cons.2 ⟨hb, hs.blank⟩,
      .inr ((hs.stops.resolve_left (by simp)).cons b)⟩
  generalize hf : false = free at h
  cases h with
  | last hs =>
    subst hf
    exact .last (hseam hs)
  | cons hs _ hi h =>
    subst hf
    exact .cons (hseam hs) (.inr (by simp)) hi h

/-- The same ink and blanks in front of both. -/
theorem same {a : List Glyph} (ha : ∀ g ∈ a, g.isInk = true ∨ g.isBlank = true)
    (h : Aligned false σ ω) : Aligned false (a ++ σ) (a ++ ω) := by
  induction a with
  | nil => exact h
  | cons g a ih =>
    have h := ih fun x hx => ha x (by simp [hx])
    rcases ha g (by simp) with hg | hg
    · exact cons_ink hg h
    · exact cons_blank hg h

/-- At the front of a line gaps may go. -/
theorem lead {π : List Glyph} (hπ : Gap π) (h : Aligned true σ ω) : Aligned true (π ++ σ) ω := by
  generalize hf : true = free at h
  cases h with
  | last hs =>
    subst hf
    exact .last ⟨gap_append.2 ⟨hπ, hs.gap⟩, hs.blank, .inl rfl⟩
  | cons hs _ hi h =>
    subst hf
    rw [← List.append_assoc]
    exact .cons ⟨gap_append.2 ⟨hπ, hs.gap⟩, hs.blank, .inl rfl⟩ (.inl rfl) hi h

/-- What is aligned at the front of a line may follow ink, a gap in between. -/
theorem glue {π β : List Glyph} (hπ : Gap π) (hβ : Blank β) (hne : β ≠ [])
    (hstop : ∀ γ δ, StopsLike (π ++ γ) (β ++ δ)) (h : Aligned true σ ω) :
    Aligned false (π ++ σ) (β ++ ω) := by
  have hseam : ∀ {γ δ : List Glyph}, Seam true γ δ → Seam false (π ++ γ) (β ++ δ) := by
    intro γ δ hs
    exact ⟨gap_append.2 ⟨hπ, hs.gap⟩, blank_append.2 ⟨hβ, hs.blank⟩, .inr (hstop γ δ)⟩
  generalize hf : true = free at h
  cases h with
  | last hs =>
    subst hf
    exact .last (hseam hs)
  | cons hs _ hi h =>
    subst hf
    rw [← List.append_assoc, ← List.append_assoc]
    exact .cons (hseam hs) (.inr (by simp [hne])) hi h

/-- Where a gap stands another one may have stood that holds a comment, unless
the gap is empty and two characters would have met there. -/
theorem swap {a g g' : List Glyph} (hg : Gap g) (hg' : Gap g') (hk : ∃ x ∈ g', x.kind ≠ .code)
    (hlf : ∀ x ∈ a ++ g', x ≠ ⟨.code, '\n'⟩)
    (hsep : g ≠ [] ∨ (∀ i, σ.head? = some i → i.isInk = false) ∨ (a = [] ∧ free = true) ∨
      ∃ b, a.getLast? = some b ∧ b.isInk = false)
    (h : Aligned free (a ++ (g ++ σ)) ω) : Aligned free (a ++ (g' ++ σ)) ω := by
  generalize hτ : a ++ (g ++ σ) = τ at h
  induction h generalizing a with
  | @last free γ δ hs =>
    subst hτ
    exact .last (hs.swap hg' hk hlf)
  | @cons free γ δ σ₁ ω₁ i hs hne hi h ih =>
    rcases append_eq_append_cons hτ with ⟨c, rfl, rfl⟩ | ⟨c, rfl, hc⟩
    · -- the gap lies further on
      rw [List.append_assoc, List.cons_append]
      refine .cons hs hne hi (ih (fun x hx => hlf x ?_) ?_ rfl)
      · rw [List.append_assoc, List.mem_append, List.cons_append]
        exact .inr (List.mem_cons_of_mem _ hx)
      · rcases hsep with h1 | h1 | ⟨h1, -⟩ | ⟨b, hb, hbi⟩
        · exact .inl h1
        · exact .inr (.inl h1)
        · simp at h1
        · refine .inr (.inr (.inr ⟨b, ?_, hbi⟩))
          rcases c with _ | ⟨d, c⟩
          · obtain rfl : i = b := by simpa using hb
            rw [hi] at hbi
            cases hbi
          · simpa [List.getLast?_cons_cons] using hb
    · -- the gap lies in front of this ink
      obtain ⟨c, rfl, rfl⟩ := split_ink hi hg hc.symm
      rw [show a ++ (g' ++ (c ++ i :: σ₁)) = (a ++ (g' ++ c)) ++ i :: σ₁ by simp]
      refine .cons (hs.swap hg' hk hlf) ?_ hi h
      by_cases hδ : δ = []
      · refine hne.elim .inl fun hne => ?_
        obtain ⟨rfl, h2⟩ := List.append_eq_nil_iff.1 (hne hδ)
        obtain ⟨rfl, rfl⟩ := List.append_eq_nil_iff.1 h2
        rcases hsep with h1 | h1 | ⟨-, h1⟩ | ⟨b, hb, -⟩
        · exact absurd rfl h1
        · have := h1 i rfl
          rw [hi] at this
          cases this
        · exact .inl h1
        · simp at hb
      · exact .inr fun h => absurd h hδ

end Aligned
end Glyph
end Gloss
