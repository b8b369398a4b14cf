import Gloss.Proofs.Rescan
import Gloss.Proofs.Writing
/-!
# What is written

`Line.written` tells glyph by glyph what a line and the pieces behind it come
to, behind what the line guards (`Writing.finish_eq`). `Writing.aligned`: it is
aligned with the glyphs of the pieces. Both are by induction on `Writing`, so
they hold of whatever lines and pieces may come together, and a stripped text is
scanned again the way it was written (`glyphs_strip`).
-/

namespace Gloss

open Glyph (Aligned Blank Gap)

namespace Line
variable {policy : Policy} {l : Line} {p : Piece} {ps : List Piece}

/-- The glyphs that come behind the last literal of the line. -/
def written (policy : Policy) (l : Line) : List Piece → List Glyph
  | [] => Text.glyphs .code (l.tail policy)
  | p :: ps =>
    if p.kind.isLiteral then
      Text.glyphs .code l.loose.reverse ++
        (p.glyphs ++ written policy (if p.breaks policy then {} else l.feed policy p) ps)
    else if p.breaks policy then
      Text.glyphs .code ((l.feed policy p).tail policy) ++ written policy {} ps
    else written policy (l.feed policy p) ps

theorem written_literal (hk : p.kind.isLiteral = true) (h : p.breaks policy = false) :
    l.written policy (p :: ps) =
      Text.glyphs .code l.loose.reverse ++
        (p.glyphs ++ (l.addLiteral p.text).written policy ps) := by
  rw [written, if_pos hk, h, if_neg (by simp), feed_literal hk]

theorem written_literalBreak (hk : p.kind.isLiteral = true) (h : p.breaks policy = true) :
    l.written policy (p :: ps) =
      Text.glyphs .code l.loose.reverse ++ (p.glyphs ++ written policy {} ps) := by
  rw [written, if_pos hk, if_pos h]

theorem written_next (hk : p.kind.isLiteral = false) (h : p.breaks policy = false) :
    l.written policy (p :: ps) = (l.feed policy p).written policy ps := by
  rw [written, hk, h, if_neg (by simp), if_neg (by simp)]

theorem written_break (hk : p.kind.isLiteral = false) (h : p.breaks policy = true) :
    l.written policy (p :: ps) =
      Text.glyphs .code ((l.feed policy p).tail policy) ++ written policy {} ps := by
  rw [written, hk, if_neg (by simp), if_pos h]

end Line

namespace Writing
variable {policy : Policy} {before : Option Char} {l : Line} {ps : List Piece}

/-- A line and the pieces behind it come to what the line guards and then what is
written. -/
theorem finish_eq (h : Writing policy before l ps) :
    l.finish policy ps = l.guarded.reverse ++ Text.ofGlyphs (l.written policy ps) := by
  induction h with
  | stop hl => rw [Line.finish, Line.written, Text.ofGlyphs_glyphs, Line.close_eq hl.closes]
  | code hl ho hs _ ih =>
    rw [Line.finish_next (Piece.breaks_of_not_mem hs), Line.feed_code, ih,
      Line.written_next rfl (Piece.breaks_of_not_mem hs), Line.feed_code]
    rfl
  | codeBreak hl ha _ ih =>
    rw [Line.finish_break (Piece.breaks_of_not_comment rfl),
      Line.written_break rfl (Piece.breaks_of_not_comment rfl), Line.feed_code, ih, hl.close_add]
    simp
  | literal hl hk hs hc _ _ ih =>
    rw [Line.finish_next (Piece.breaks_of_not_mem hs), Line.feed_literal hk, ih,
      Line.written_literal hk (Piece.breaks_of_not_mem hs)]
    simp [Line.addLiteral, Piece.glyphs]
  | literalBreak hl hk ha _ hfits _ ih =>
    have hc := Kind.not_comment_of_literal hk
    rw [Line.finish_break (Piece.breaks_of_not_comment hc),
      Line.written_literalBreak hk (Piece.breaks_of_not_comment hc), Line.feed_literal hk, ih,
      Line.close_eq hfits.closes, Line.tail_of_loose rfl]
    simp [Line.addLiteral, Piece.glyphs]
  | comment hl ho hk hne hbreaks _ _ _ _ ih =>
    rw [Line.finish_next hbreaks, Line.written_next (Kind.not_literal_of_comment hk) hbreaks,
      Line.feed_comment hk, ih, Line.guarded_takeOut]
  | commentBreak hl ho hk ha _ hp _ ih =>
    subst hp
    rw [Line.finish_break Piece.breaks_feed,
      Line.written_break (Kind.not_literal_of_comment hk) Piece.breaks_feed, Line.feed_comment hk, ih,
      Line.takeOut_break Piece.breaks_feed, (hl.clear ho).close_add, Line.guarded_clear]
    simp

end Writing

/-! ## Lines are written in alignment -/

namespace Line
variable {policy : Policy} {free : Bool} {l : Line} {σ ω : List Glyph}

/-- A terminator stops like the blanks and the terminator do. -/
theorem stopsLike_of_pads {pads : Text} (hpads : ∀ c ∈ pads, Text.isPad c = true) {γ δ : List Glyph}
    (h : pads = [] → Glyph.StopsLike γ δ) :
    Glyph.StopsLike (Text.glyphs .code pads ++ γ) δ := by
  rcases pads with _ | ⟨c, pads⟩
  · exact h rfl
  · have hc := hpads c (by simp)
    refine ⟨by simp, fun hp => ?_, fun hp => ?_⟩
    · have := (List.cons_prefix_cons.1 hp).1
      obtain rfl : '\n' = c := (Glyph.mk.inj this).2
      cases hc
    · have := (List.cons_prefix_cons.1 hp).1
      obtain rfl : '\r' = c := (Glyph.mk.inj this).2
      cases hc

theorem aligned_literal {p : Piece} (hk : p.kind.isLiteral = true) (h : Aligned false σ ω) :
    Aligned free (Text.glyphs .code l.loose.reverse ++ (p.glyphs ++ σ))
      (Text.glyphs .code l.loose.reverse ++ (p.glyphs ++ ω)) := by
  have hp : Aligned false (p.glyphs ++ σ) (p.glyphs ++ ω) :=
    h.same fun g hg => .inl (Text.ink_of_literal hk hg)
  exact (hp.same Text.ink_or_blank).weaken

/-- What closing leaves of a line is aligned with its loose text, and so are the
lines behind it if they were. -/
theorem aligned_tail (policy : Policy) (hfree : l.touched = true → l.guarded = [] → free = true)
    (hend : Text.isTerminated l.loose.reverse = true ∨ σ = [] ∧ ω = []) (h : Aligned true σ ω) :
    Aligned free (Text.glyphs .code l.loose.reverse ++ σ)
      (Text.glyphs .code (l.tail policy) ++ ω) := by
  obtain ⟨kept, pads, hl, hpads, -, htail⟩ := tail_cases policy l
  generalize hterm : (Text.splitTerminator l.loose.reverse).2 = terminator at hl htail
  have hwhite : ∀ c ∈ terminator, Text.isWhite c = true := hterm ▸ Text.white_terminator _
  have hgap : Gap (Text.glyphs .code (pads ++ terminator)) := by
    rw [Text.glyphs_append]
    exact Glyph.gap_append.2 ⟨(Glyph.blank_of_pads hpads).gap, (Glyph.blank_glyphs hwhite).gap⟩
  rcases htail with htail | ⟨-, ht, hg, rfl, htail⟩
  · rw [htail, hl]
    simp only [Text.glyphs_append, List.append_assoc]
    refine (Aligned.same Text.ink_or_blank ?_).weaken
    rw [← List.append_assoc, ← Text.glyphs_append]
    cases hend' : Text.isTerminated l.loose.reverse with
    | false =>
      obtain ⟨rfl, rfl⟩ := hend.resolve_left (by simp [hend'])
      obtain rfl := (Text.terminator_of_not_terminated hend').symm.trans hterm
      simp only [List.append_nil, Text.glyphs_nil] at hgap ⊢
      have hstop := stopsLike_of_pads hpads fun _ => .refl []
      rw [List.append_nil] at hstop
      exact .last ⟨hgap, Glyph.blank_nil, .inr hstop⟩
    | true =>
      have hcases := Text.terminator_cases hend'
      rw [hterm] at hcases
      have hne : Text.glyphs .code terminator ≠ [] := by
        rcases hcases with rfl | rfl <;> simp
      refine h.glue hgap (Glyph.blank_glyphs hwhite) hne fun γ δ => ?_
      rw [Text.glyphs_append, List.append_assoc]
      refine stopsLike_of_pads hpads fun _ => ?_
      rcases hcases with rfl | rfl
      · exact ⟨by simp, fun _ => List.prefix_append .., fun hp => by simp at hp⟩
      · exact ⟨by simp, fun hp => by simp at hp, fun _ => List.prefix_append ..⟩
  · obtain rfl := hfree ht hg
    rw [htail, hl]
    exact h.lead hgap

theorem aligned_add (policy : Policy) {before : Option Char} (hl : l.Fits before) {s : Text}
    (hs : Text.isTerminated s = true) (h : Aligned true σ ω) :
    Aligned before.isNone (Text.glyphs .code (l.add s).loose.reverse ++ σ)
      (Text.glyphs .code ((l.add s).tail policy) ++ ω) := by
  refine aligned_tail (l := l.add s) policy hl.isNone_of_touched (.inl ?_) h
  have hne : s ≠ [] := by
    rintro rfl
    cases hs
  rwa [add, List.reverse_append, List.reverse_reverse, Text.isTerminated_append hne]

/-- The space, or the line break, that is left where a comment was taken out is
aligned with the comment and the blanks in front of it. -/
theorem aligned_clear {before : Option Char} (hl : l.Fits before) {p : Piece}
    (hk : p.kind.isComment = true) (hne : p.text ≠ []) {s : Text}
    (hs : ∀ c ∈ s, Text.isWhite c = true)
    (hsep : s ≠ [] ∨ (∀ i, σ.head? = some i → i.isInk = false) ∨
      (free = true ∧ (l.clear p).loose = []) ∨
      ∃ c t, (l.clear p).loose = c :: t ∧ Text.isWhite c = true)
    (h : Aligned free (Text.glyphs .code ((l.clear p).add s).loose.reverse ++ σ) ω) :
    Aligned free (Text.glyphs .code l.loose.reverse ++ (p.glyphs ++ σ)) ω := by
  obtain ⟨pads, hloose, hpads⟩ := exists_clear l p
  have hlf := hl.loose
  rw [hloose] at hlf
  have hgap : Gap (Text.glyphs .code pads.reverse ++ p.glyphs) := by
    have hblank := Glyph.blank_of_pads fun c hc => hpads c (List.mem_reverse.1 hc)
    exact Glyph.gap_append.2 ⟨hblank.gap, fun g => Text.gap_of_comment hk⟩
  have hcode : ∀ g ∈ p.glyphs, g.kind ≠ .code := by
    intro g hg he
    rw [← (Text.mem_glyphs.1 hg).1, he] at hk
    cases hk
  rw [hloose, List.reverse_append, Text.glyphs_append, List.append_assoc,
    ← List.append_assoc (Text.glyphs .code pads.reverse)]
  simp only [Line.add, List.reverse_append, List.reverse_reverse, Text.glyphs_append,
    List.append_assoc] at h
  refine h.swap (Blank.gap (Glyph.blank_glyphs hs)) hgap ?_ ?_ ?_
  · obtain ⟨c, t, ht⟩ := List.exists_cons_of_ne_nil hne
    have hc : ⟨p.kind, c⟩ ∈ p.glyphs := Text.mem_glyphs.2 ⟨rfl, by simp [ht]⟩
    exact ⟨_, List.mem_append_right _ hc, hcode _ hc⟩
  · rintro g hg rfl
    simp only [List.mem_append] at hg hlf
    rcases hg with hg | hg | hg
    · exact hlf (.inr (List.mem_reverse.1 (Text.mem_glyphs.1 hg).2))
    · exact hlf (.inl (List.mem_reverse.1 (Text.mem_glyphs.1 hg).2))
    · exact hcode _ hg rfl
  · rcases hsep with h1 | h1 | ⟨h1, h2⟩ | ⟨c, t, h1, h2⟩
    · exact .inl (by simpa using h1)
    · exact .inr (.inl h1)
    · exact .inr (.inr (.inl ⟨by simp [h2], h1⟩))
    · refine .inr (.inr (.inr ⟨⟨.code, c⟩, by simp [h1], ?_⟩))
      simp [Glyph.isInk, Kind.isLiteral, h2]

/-- Where no space is put for a comment there is no need for one. -/
theorem Fits.apart {before : Option Char} (hl : l.Fits before) (ho : Open before) {p : Piece}
    (hsolid : ¬ (Text.isSolid (l.clear p).last? && Text.isSolid p.next) = true)
    (hnext : ∀ i, σ.head? = some i → i.isInk = true → Text.isSolid p.next = true) :
    (∀ i, σ.head? = some i → i.isInk = false) ∨ (before.isNone = true ∧ (l.clear p).loose = []) ∨
      ∃ c t, (l.clear p).loose = c :: t ∧ Text.isWhite c = true := by
  by_cases hn : Text.isSolid p.next = true
  · have hlast : ¬ Text.isSolid (l.clear p).last? = true := by simpa [hn] using hsolid
    rw [last?, guarded_clear] at hlast
    rcases hloose : (l.clear p).loose with _ | ⟨c, t⟩
    · rw [hloose] at hlast
      rcases ho with rfl | hb
      · exact .inr (.inl ⟨rfl, rfl⟩)
      · rw [hl.solid hb] at hlast
        exact absurd hb hlast
    · rw [hloose] at hlast
      exact .inr (.inr ⟨c, t, rfl, by simpa [Text.isSolid] using hlast⟩)
  · refine .inl fun i hi => ?_
    cases hink : i.isInk with
    | false => rfl
    | true => exact absurd (hnext i hi hink) hn

end Line

/-- What is written for a line and the pieces behind it is aligned with their
glyphs. -/
theorem Writing.aligned {policy : Policy} {before : Option Char} {l : Line} {ps : List Piece}
    (h : Writing policy before l ps) :
    Aligned before.isNone (Text.glyphs .code l.loose.reverse ++ Piece.glyphsOf ps)
      (l.written policy ps) := by
  induction h with
  | stop hl =>
    have hnil : Aligned true [] [] := .last ⟨Glyph.gap_nil, Glyph.blank_nil, .inl rfl⟩
    have h := Line.aligned_tail policy hl.isNone_of_touched (.inr ⟨rfl, rfl⟩) hnil
    simpa [Line.written, Piece.glyphsOf] using h
  | code hl ho hs _ ih =>
    rw [Line.written_next rfl (Piece.breaks_of_not_mem hs), Line.feed_code]
    simpa [Line.add, Piece.glyphsOf, Piece.glyphs] using ih
  | @codeBreak before _ l a ps hl ha _ ih =>
    rw [Line.written_break rfl (Piece.breaks_of_not_comment rfl), Line.feed_code]
    have h := Line.aligned_add policy hl (Text.isTerminated_feed a) ih
    simpa [Line.add, Piece.glyphsOf, Piece.glyphs] using h
  | literal hl hk hs hc _ _ ih =>
    rw [Line.written_literal hk (Piece.breaks_of_not_mem hs)]
    exact Line.aligned_literal hk ih
  | literalBreak hl hk ha _ hfits _ ih =>
    have hc := Kind.not_comment_of_literal hk
    rw [Line.written_literalBreak hk (Piece.breaks_of_not_comment hc)]
    exact Line.aligned_literal hk ih
  | comment hl ho hk hne hbreaks _ _ hnext _ ih =>
    rw [Line.written_next (Kind.not_literal_of_comment hk) hbreaks, Line.feed_comment hk]
    rw [Line.takeOut_next hbreaks] at ih ⊢
    split
    · rename_i hsolid
      rw [if_pos hsolid] at ih
      exact Line.aligned_clear hl hk hne (by simp [Text.isWhite]) (.inl (by simp)) ih
    · -- no space, so what stands behind the comment does not meet a solid character
      rename_i hsolid
      rw [if_neg hsolid] at ih
      exact Line.aligned_clear (s := []) hl hk hne (by simp) (.inr (hl.apart ho hsolid hnext)) ih
  | @commentBreak _ _ _ _ a _ hl ho hk ha _ hp _ ih =>
    subst hp
    rw [Line.written_break (Kind.not_literal_of_comment hk) Piece.breaks_feed, Line.feed_comment hk,
      Line.takeOut_break Piece.breaks_feed]
    have hterm := Text.isTerminated_terminator (Text.isTerminated_feed a)
    refine Line.aligned_clear hl hk (by simp) (Text.white_terminator (a ++ ['\n'])) (.inl ?_)
      (Line.aligned_add .preserve (hl.clear ho) hterm ih)
    intro he
    rw [he] at hterm
    cases hterm

/-! ## The stripped text -/

namespace Rules
variable {r : Rules}

/-- What stripping writes, glyph by glyph. -/
def written (r : Rules) (policy : Policy) (s : Text) : List Glyph :=
  Line.written policy {} (r.pieces policy s)

theorem writing_pieces (policy : Policy) (s : Text) : Writing policy none {} (r.pieces policy s) :=
  writing (Line.fits_empty none (by simp [Text.isSolid])) (.inl (.inl rfl))

theorem strip_eq_ofGlyphs (policy : Policy) (s : Text) :
    r.strip policy s = Text.ofGlyphs (r.written policy s) := by
  rw [strip_eq_finish, (writing_pieces policy s).finish_eq]
  rfl

theorem aligned_written (policy : Policy) (s : Text) :
    Aligned true (r.glyphs s) (r.written policy s) := by
  have h := (r.writing_pieces policy s).aligned
  rwa [glyphsOf_pieces] at h

theorem rescanned_strip (policy : Policy) (s : Text) :
    r.Rescanned true s (r.written policy s) := rescanned (aligned_written policy s)

/-- Every character of a stripped text is scanned as what it was written as. -/
theorem glyphs_strip (policy : Policy) (s : Text) :
    r.glyphs (r.strip policy s) = r.written policy s := by
  rw [strip_eq_ofGlyphs]
  exact (rescanned_strip policy s).glyphs

end Rules
end Gloss
