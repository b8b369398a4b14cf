import Gloss.Proofs.Turn
/-!
# What a scanner gives

A scanner ends a construct where `Mode.cut` does (`cutsAs`), since every turn goes
on in the construct or ends it there. So it gives the regions of a scan:
`gives_iff`.
-/

namespace Gloss.Scanner
variable {r : Rules} {mode : Mode} {before inside rest : Text}

/-! ## Turns and calls -/

theorem gives_iff_of_turn? {s t : Scanner} {gs : List Region} (he : s.cursor.atEnd = false)
    (h : s.turn? = some (none, t)) : s.Gives gs ↔ t.Gives gs :=
  gives_iff_of_step? he ((turn?_of_step? he).symm.trans h)

theorem gives_cons_of_turn? {s t : Scanner} {g : Region} {gs : List Region}
    (h : s.turn? = some (some g, t)) (ht : t.Gives gs) : s.Gives (g :: gs) := by
  by_cases he : s.cursor.atEnd = true
  · rw [turn?, if_pos he] at h
    refine .more ?_ ht
    rw [next?, dif_pos he, h]
  · have he : s.cursor.atEnd = false := by simpa using he
    exact gives_cons_of_step? he ((turn?_of_step? he).symm.trans h) ht

/-! ## Where a construct ends -/

/-- The scanner ends the region in progress where the cut does. -/
def CutsAs (r : Rules) (mode : Mode) (before inside rest : Text) (cut : Cut) : Prop :=
  ∀ gs, (within r .code (before ++ (inside ++ cut.inside)) [] cut.rest).Gives gs →
    (within r mode before inside rest).Gives
      (regionOf mode.kind before (inside ++ cut.inside) :: gs)

theorem cutsAs (hmode : mode ≠ .code) (h : inside ≠ []) :
    CutsAs r mode before inside rest (mode.cut r rest) := by
  -- a turn that goes on leaves less of the text
  generalize hn : rest.length = n
  induction n using Nat.strongRecOn generalizing mode inside rest with
  | ind n ih =>
    intro gs hs
    obtain ⟨x, hx, hm⟩ := move r before inside mode rest
    cases hm with
    | code _ => exact absurd rfl hmode
    | opens _ => exact absurd rfl hmode
    | @reads read _ mode' rest hread _ hmode' hkind hcut =>
      have hlt : rest.length < n := by
        have := List.length_pos_iff.2 hread
        rw [← hn, List.length_append]
        omega
      have he : (within r mode before inside (read ++ rest)).cursor.atEnd = false := by
        obtain ⟨c, t, rfl⟩ := List.exists_cons_of_ne_nil hread
        exact atEnd_within
      rw [gives_iff_of_turn? he hx]
      rw [hcut] at hs ⊢
      simp only [Cut.push, ← List.append_assoc inside] at hs ⊢
      rw [← hkind]
      exact ih _ hlt hmode' (by simp [h]) rfl gs hs
    | @ends read _ rest closed _ hcut _ =>
      rw [hcut] at hs ⊢
      rw [finish_within _ (by simp [h])] at hx
      exact gives_cons_of_turn? hx hs

/-! ## The whole text -/

/-- A run of code is given whole, and what stands behind it as if the scanner
had started there. -/
theorem gives_code {code : Text} {gs : List Region} (hc : r.Code code rest)
    (h : inside ++ code ≠ [])
    (hs : (within r .code (before ++ (inside ++ code)) [] rest).Gives gs) :
    (within r .code before inside (code ++ rest)).Gives
      (regionOf .code before (inside ++ code) :: gs) := by
  induction code generalizing inside with
  | nil =>
    rw [List.append_nil] at h hs ⊢
    rcases hc.stops with rfl | ⟨o, ho⟩
    · exact gives_cons_of_end h hs
    · -- the step that ends the run leads where a scanner behind the run gets to
      obtain ⟨hm, t, rfl⟩ := Rules.mem_of_opener? ho
      have hstep := step?_code before inside ho
      have hstart := step?_code (before ++ inside) [] ho
      rw [finish_within _ h] at hstep
      rw [finish_within_nil, List.append_nil] at hstart
      exact gives_cons_of_step? (atEnd_opener hm) hstep
        ((gives_iff_of_step? (atEnd_opener hm) hstart).1 hs)
  | cons c code ih =>
    have hquiet : r.opener? (c :: (code ++ rest)) = none := hc.quiet [] (c :: code) rfl (by simp)
    have hc' : r.Code code rest :=
      ⟨fun a b he => hc.quiet (c :: a) b (by rw [he, List.cons_append]), hc.stops⟩
    rw [List.cons_append, gives_iff_of_step? atEnd_within (step?_code_of_none hquiet)]
    rw [List.append_cons inside c code] at h hs ⊢
    exact ih hc' h hs

/-- The scanner gives the regions of the lexemes. -/
theorem gives_lexemes (s : Text) : ∀ before : Text,
    (within r .code before [] s).Gives
      ((layOut (Text.width before) (r.lexemes s)).map (·.region)) := by
  induction s using Rules.reading r with
  | nil =>
    intro before
    rw [Rules.lexemes_nil]
    exact gives_nil
  | code code rest hne hc ih =>
    intro before
    have ih := ih (before ++ code)
    rw [Text.width_append] at ih
    rw [Rules.lexemes_code hne hc]
    exact gives_code hc hne ih
  | construct o inside closed rest ho he ih =>
    intro before
    have hm := (Rules.mem_of_opener? ho).1
    have ih := ih (before ++ (o.token ++ inside))
    have hstep := step?_code before [] ho
    have hcut : CutsAs r (.ofOpener o) before o.token (inside ++ rest) _ :=
      cutsAs (ofOpener_ne_code hm) (Rules.token_ne_nil hm)
    rw [finish_within_nil, List.append_nil] at hstep
    rw [cut_ofOpener hm, Rules.cut_of_ends hm he] at hcut
    rw [Text.width_append] at ih
    rw [Rules.lexemes_construct ho he, gives_iff_of_step? (atEnd_opener hm) hstep]
    rw [← kind_ofOpener o]
    exact hcut _ ih

/-- A scanner gives the regions of a scan. -/
theorem gives_iff (r : Rules) (s : Text) (gs : List Region) :
    (ofText r s).Gives gs ↔ gs = r.scan s := by
  have h : (within r .code [] [] s).Gives (r.scan s) := gives_lexemes s []
  rw [ofText_eq]
  constructor
  · intro hg
    exact hg.unique h
  · rintro rfl
    exact h

end Gloss.Scanner
