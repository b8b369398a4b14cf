import Gloss.Proofs.Written
/-!
# What stripping keeps

- `strip_strip`: a stripped text has no comment, and stripping it again, under
  either policy, changes nothing.
- `skeleton_strip`: the literals and words of a text, and what stands apart in
  it, are those of the stripped text.

Both follow from `rescanned_strip`.
-/

namespace Gloss

/-! ## Texts without comments -/

theorem Line.finish_of_not_comment {policy : Policy} {l : Line} {ps : List Piece}
    (hl : l.touched = false) (hps : ∀ p ∈ ps, p.kind.isComment = false) :
    l.finish policy ps = l.text ++ Text.ofGlyphs (Piece.glyphsOf ps) := by
  have hclose : ∀ {l : Line}, l.touched = false → l.close policy = l.text := by
    intro l hl
    simp [close, hl]
  induction ps generalizing l with
  | nil => simp [finish, hclose hl, Piece.glyphsOf]
  | cons p ps ih =>
    have hp := hps p (by simp)
    have hps' := fun q hq => hps q (List.mem_cons_of_mem _ hq)
    have hfeed : (l.feed policy p).touched = false ∧ (l.feed policy p).text = l.text ++ p.text := by
      unfold feed
      rw [hp, if_neg (by simp)]
      split
      · exact ⟨hl, text_addLiteral l p.text⟩
      · exact ⟨hl, text_add l p.text⟩
    rw [finish]
    split
    · rw [hclose hfeed.1, hfeed.2, ih rfl hps']
      simp [Piece.glyphsOf, Piece.glyphs, text]
    · rw [ih hfeed.1 hps', hfeed.2]
      simp [Piece.glyphsOf, Piece.glyphs]

namespace Rules
variable {r : Rules}

theorem strip_of_not_comment {policy : Policy} {s : Text}
    (h : ∀ f ∈ r.fragments s, f.kind.isComment = false) : r.strip policy s = s := by
  have hps : ∀ p ∈ r.pieces policy s, p.kind.isComment = false := by
    intro p hp
    obtain ⟨f, hf, hp⟩ := List.mem_flatMap.1 hp
    have hk : p.kind = f.kind := by
      unfold Fragment.pieces Policy.pieces at hp
      split at hp
      · obtain ⟨t, -, rfl⟩ := List.mem_map.1 hp
        rfl
      · rw [List.mem_singleton.1 hp]
    rw [hk]
    exact h f hf
  rw [strip_eq_finish, Line.finish_of_not_comment rfl hps, glyphsOf_pieces, ofGlyphs_glyphs]
  rfl

theorem not_comment_strip (policy : Policy) (s : Text) :
    ∀ f ∈ r.fragments (r.strip policy s), f.kind.isComment = false := by
  refine fun f => not_comment_of_glyphs ?_
  rw [glyphs_strip]
  exact (aligned_written policy s).not_comment

/-! ## Main results -/

/-- A stripped text has no comment, and stripping it again changes nothing. -/
theorem strip_strip (r : Rules) (policy : Policy) (s : Text) :
    (∀ g ∈ r.scan (r.strip policy s), g.kind.isComment = false) ∧
      ∀ again : Policy, r.strip again (r.strip policy s) = r.strip policy s := by
  refine ⟨fun g hg => ?_, fun again => strip_of_not_comment (not_comment_strip policy s)⟩
  obtain ⟨f, hf, rfl⟩ := List.mem_map.1 hg
  exact not_comment_strip policy s f hf

/-- No literal changes, no word is lost, split or joined with another one, and
what was apart stays apart. -/
theorem skeleton_strip (r : Rules) (policy : Policy) (s : Text) :
    r.skeleton (r.strip policy s) = r.skeleton s := by
  rw [strip_eq_ofGlyphs]
  exact (rescanned_strip policy s).items

end Rules
end Gloss
