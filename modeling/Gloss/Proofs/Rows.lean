import Gloss.Proofs.Glyph
import Gloss.Proofs.Lines
import Mathlib.Data.List.Forall2
/-!
# Rows

The lines of a text as glyphs, and what the preserving policy owes each of them
(`Kept`): a line without a comment stays as it is, and of a line with one the
ink stays, without blanks at its end. `Tracks` is what is shown of a line while
it is being written, from its loose text on.
-/

namespace Gloss

/-- Every carriage return is that of a line end. -/
def Text.NoBareReturn (s : Text) : Prop := ∀ a b, s = a ++ '\r' :: b → ['\n'] <+: b

theorem Text.NoBareReturn.of_append {s t : Text} (h : (s ++ t).NoBareReturn) : t.NoBareReturn :=
  fun a b hab => h (s ++ a) b (by rw [hab, List.append_assoc])

namespace Glyph

/-- The lines of a text, each with its line feed; the last one has none and may
be empty. -/
def rows : List Glyph → List (List Glyph)
  | [] => [[]]
  | g :: gs => if g.char = '\n' then [g] :: rows gs else (rows gs).modifyHead (g :: ·)

/-- The terminator of a line. -/
def terminator (row : List Glyph) : Text := (Text.splitTerminator (Text.ofGlyphs row)).2

def HasComment (row : List Glyph) : Prop := ∃ g ∈ row, g.kind.isComment = true

/-- No space or tab at the end, except in a literal. -/
def EndsNeat (body : List Glyph) : Prop :=
  ∀ g, body.getLast? = some g → Text.isPad g.char = true → g.kind.isLiteral = true

/-- The row ends with `stop`, neatly in front of it. -/
def Trimmed (stop : Text) (row : List Glyph) : Prop :=
  ∃ body tail, row = body ++ tail ∧ Text.ofGlyphs tail = stop ∧ EndsNeat body

/-- What becomes of a line under the preserving policy. -/
structure Kept (σ ω : List Glyph) : Prop where
  same : ¬ HasComment σ → ω = σ
  ink : ω.filter isInk = σ.filter isInk
  clean : ∀ g ∈ ω, g.isInk = true ∨ g.isBlank = true
  trimmed : HasComment σ → Trimmed (terminator σ) ω

/-! ## Cutting behind some glyphs -/

/-- The glyphs cut behind each one with `p`. The last part has none such and may
be empty. -/
def cutBehind (p : Glyph → Bool) : List Glyph → List (List Glyph)
  | [] => [[]]
  | g :: gs => if p g then [g] :: cutBehind p gs else (cutBehind p gs).modifyHead (g :: ·)

section Cut
variable {p : Glyph → Bool} {π : List Glyph}

theorem cutBehind_ne_nil (p : Glyph → Bool) (σ : List Glyph) : cutBehind p σ ≠ [] := by
  induction σ with
  | nil => simp [cutBehind]
  | cons g σ ih =>
    rw [cutBehind]
    split
    · simp
    · obtain ⟨x, xs, h⟩ := List.exists_cons_of_ne_nil ih
      simp [h]

theorem cutBehind_append (hπ : ∀ g ∈ π, p g = false) (σ : List Glyph) :
    cutBehind p (π ++ σ) = (cutBehind p σ).modifyHead (π ++ ·) := by
  obtain ⟨x, xs, h⟩ := List.exists_cons_of_ne_nil (cutBehind_ne_nil p σ)
  induction π with
  | nil => simp [h]
  | cons g π ih =>
    have hg : ¬ p g = true := by simp [hπ g (by simp)]
    rw [List.cons_append, cutBehind, if_neg hg, ih fun k hk => hπ k (by simp [hk]), h]
    rfl

theorem cutBehind_of_not (hπ : ∀ g ∈ π, p g = false) : cutBehind p π = [π] := by
  have h := cutBehind_append hπ []
  rw [List.append_nil] at h
  simpa [cutBehind] using h

theorem cutBehind_line (hπ : ∀ g ∈ π, p g = false) {g : Glyph} (hg : p g = true)
    (σ : List Glyph) : cutBehind p (π ++ g :: σ) = (π ++ [g]) :: cutBehind p σ := by
  rw [cutBehind_append hπ, cutBehind, if_pos hg]
  rfl

end Cut

/-! ## The rows of a text -/

theorem rows_eq (σ : List Glyph) : rows σ = cutBehind (·.char == '\n') σ := by
  induction σ with
  | nil => rfl
  | cons g σ ih =>
    rw [rows, cutBehind, ih]
    simp only [beq_iff_eq]

theorem forall_not_feed {π : List Glyph} (hπ : '\n' ∉ Text.ofGlyphs π) :
    ∀ g ∈ π, (g.char == '\n') = false := by
  intro g hg
  rw [beq_eq_false_iff_ne]
  intro hc
  exact hπ (hc ▸ List.mem_map_of_mem hg)

theorem rows_ne_nil (σ : List Glyph) : rows σ ≠ [] := by
  rw [rows_eq]
  exact cutBehind_ne_nil _ σ

theorem rows_append {π : List Glyph} (hπ : '\n' ∉ Text.ofGlyphs π) (σ : List Glyph) :
    rows (π ++ σ) = (rows σ).modifyHead (π ++ ·) := by
  rw [rows_eq, rows_eq]
  exact cutBehind_append (forall_not_feed hπ) σ

theorem rows_of_not_mem {π : List Glyph} (hπ : '\n' ∉ Text.ofGlyphs π) : rows π = [π] := by
  rw [rows_eq]
  exact cutBehind_of_not (forall_not_feed hπ)

theorem rows_line {π : List Glyph} (hπ : '\n' ∉ Text.ofGlyphs π) {g : Glyph} (hg : g.char = '\n')
    (σ : List Glyph) : rows (π ++ g :: σ) = (π ++ [g]) :: rows σ := by
  rw [rows_eq, rows_eq]
  exact cutBehind_line (forall_not_feed hπ) (by simpa using hg) σ

/-- Induction along the rows of a text. -/
@[elab_as_elim]
theorem byRows {motive : List Glyph → Prop} (last : ∀ σ, '\n' ∉ Text.ofGlyphs σ → motive σ)
    (line : ∀ π g σ, '\n' ∉ Text.ofGlyphs π → g.char = '\n' → motive σ → motive (π ++ g :: σ))
    (σ : List Glyph) : motive σ := by
  by_cases h : '\n' ∈ Text.ofGlyphs σ
  · obtain ⟨a, t, hs, ha⟩ := List.eq_append_cons_of_mem h
    obtain ⟨π, ρ, rfl, rfl, hρ⟩ := List.map_eq_append_iff.1 hs
    obtain ⟨g, τ, rfl, hg, -⟩ := List.map_eq_cons_iff.1 hρ
    have : τ.length < (π ++ g :: τ).length := by simp; omega
    exact line π g τ ha hg (byRows last line τ)
  · exact last σ h
termination_by σ.length

theorem head?_rows {σ x : List Glyph} {xs : List (List Glyph)} (h : rows σ = x :: xs) :
    x.head? = σ.head? := by
  induction σ using byRows with
  | last σ hσ =>
    rw [rows_of_not_mem hσ] at h
    rw [(List.cons.inj h).1]
  | line π g σ hπ hg _ =>
    rw [rows_line hπ hg] at h
    rw [← (List.cons.inj h).1]
    cases π <;> rfl

theorem length_rows (σ : List Glyph) : (rows σ).length = (Text.ofGlyphs σ).count '\n' + 1 := by
  induction σ using byRows with
  | last σ hσ => rw [rows_of_not_mem hσ, List.count_eq_zero.2 hσ]; rfl
  | line π g σ hπ hg ih =>
    rw [rows_line hπ hg, List.length_cons, ih, Text.ofGlyphs_append, Text.ofGlyphs_cons, hg,
      List.count_append, List.count_eq_zero.2 hπ, List.count_cons_self]
    omega

/-- Where no carriage return is bare a row has one only at its end. -/
theorem terminator_of_return {σ row : List Glyph} (hσ : (Text.ofGlyphs σ).NoBareReturn)
    (hrow : row ∈ rows σ) (hr : '\r' ∈ Text.ofGlyphs row) : terminator row = ['\r', '\n'] := by
  induction σ using byRows with
  | last σ h =>
    rw [rows_of_not_mem h, List.mem_singleton] at hrow
    subst hrow
    obtain ⟨a, b, hab⟩ := List.append_of_mem hr
    have hb := (hσ a b hab).subset (List.mem_singleton_self _)
    rw [hab] at h
    exact absurd (List.mem_append_right a (List.mem_cons_of_mem _ hb)) h
  | line π g σ hπ hg ih =>
    rw [rows_line hπ hg] at hrow
    rw [Text.ofGlyphs_append, Text.ofGlyphs_cons] at hσ
    rcases List.mem_cons.1 hrow with rfl | hrow
    · have hr : '\r' ∈ Text.ofGlyphs π := by simpa [hg] using hr
      obtain ⟨a, b, hab⟩ := List.append_of_mem hr
      have hb := hσ a (b ++ g.char :: Text.ofGlyphs σ) (by rw [hab]; simp)
      rcases b with _ | ⟨c, b⟩
      · rw [terminator, Text.ofGlyphs_append, hab, Text.ofGlyphs_cons, hg]
        simp [Text.splitTerminator]
      · rw [hab, ← (List.cons_prefix_cons.1 hb).1] at hπ
        simp at hπ
    · rw [← List.singleton_append, ← List.append_assoc] at hσ
      exact ih hσ.of_append hrow

/-! ## One row -/

/-- A row of the source from the loose text of its line on, and what is written
for it. `touched`: a comment stood in front. -/
structure Tracks (touched : Bool) (σ ω : List Glyph) : Prop where
  same : touched = false → ¬ HasComment σ → ω = σ
  ink : ω.filter isInk = σ.filter isInk
  clean : ∀ g ∈ ω, g.isInk = true ∨ g.isBlank = true
  returns : '\r' ∈ Text.ofGlyphs ω → '\r' ∈ Text.ofGlyphs σ
  ends : ∃ body tail, ω = body ++ tail ∧ Text.ofGlyphs tail = terminator σ ∧
    '\n' ∉ Text.ofGlyphs body ∧ (touched = true ∨ HasComment σ → EndsNeat body)

theorem hasComment_append {π σ : List Glyph} :
    HasComment (π ++ σ) ↔ HasComment π ∨ HasComment σ := by
  simp only [HasComment, List.mem_append]
  exact ⟨fun ⟨g, hg, hk⟩ => hg.imp (⟨g, ·, hk⟩) (⟨g, ·, hk⟩),
    fun h => h.elim (fun ⟨g, hg, hk⟩ => ⟨g, .inl hg, hk⟩) fun ⟨g, hg, hk⟩ => ⟨g, .inr hg, hk⟩⟩

theorem not_hasComment_glyphs {kind : Kind} (hk : kind.isComment = false) (s : Text) :
    ¬ HasComment (Text.glyphs kind s) := by
  rintro ⟨g, hg, hc⟩
  rw [(Text.mem_glyphs.1 hg).1, hk] at hc
  cases hc

theorem EndsNeat.append_literal {kind : Kind} (hk : kind.isLiteral = true) {s : Text}
    (π : List Glyph) {body : List Glyph} (hs : s = [] → π = []) (h : EndsNeat body) :
    EndsNeat (π ++ (Text.glyphs kind s ++ body)) := by
  intro g hg hpad
  rw [List.getLast?_append, List.getLast?_append] at hg
  cases hb : body.getLast? with
  | some b =>
    rw [hb] at hg
    obtain rfl := Option.some.inj hg
    exact h _ hb hpad
  | none =>
    rw [hb] at hg
    cases hl : (Text.glyphs kind s).getLast? with
    | some l =>
      rw [hl] at hg
      obtain rfl := Option.some.inj hg
      rw [(Text.mem_glyphs.1 (List.mem_of_getLast? hl)).1]
      exact hk
    | none =>
      have hnil := hs (Text.glyphs_eq_nil.1 (List.getLast?_eq_none_iff.1 hl))
      simp [hl, hnil] at hg

namespace Tracks
variable {touched : Bool} {σ ω : List Glyph}

theorem kept (h : Tracks false σ ω) : Kept σ ω := by
  refine ⟨h.same rfl, h.ink, h.clean, fun hc => ?_⟩
  obtain ⟨body, tail, hω, htail, -, hneat⟩ := h.ends
  exact ⟨body, tail, hω, htail, hneat (.inr hc)⟩

/-- The line in progress grows by a literal. -/
theorem literal {kind : Kind} (hk : kind.isLiteral = true) {p s : Text}
    (hp : '\n' ∉ p) (hs : '\n' ∉ s) (hne : s ≠ [])
    (hw : s.getLast? = some '\r' → (Text.ofGlyphs σ).head? ≠ some '\n') (h : Tracks touched σ ω) :
    Tracks touched (Text.glyphs .code p ++ (Text.glyphs kind s ++ σ))
      (Text.glyphs .code p ++ (Text.glyphs kind s ++ ω)) := by
  have hcomment : HasComment (Text.glyphs .code p ++ (Text.glyphs kind s ++ σ)) ↔ HasComment σ := by
    rw [hasComment_append, hasComment_append, or_iff_right (not_hasComment_glyphs rfl p),
      or_iff_right (not_hasComment_glyphs (Kind.not_comment_of_literal hk) s)]
  refine ⟨fun ht hc => ?_, ?_, ?_, ?_, ?_⟩
  · rw [h.same ht fun hσ => hc (hcomment.2 hσ)]
  · rw [List.filter_append, List.filter_append, h.ink, ← List.filter_append, ← List.filter_append]
  · intro g hg
    rcases List.mem_append.1 hg with hg | hg
    · exact Text.ink_or_blank g hg
    · rcases List.mem_append.1 hg with hg | hg
      · exact .inl (Text.ink_of_literal hk hg)
      · exact h.clean g hg
  · simp only [Text.ofGlyphs_append, Text.ofGlyphs_glyphs, List.mem_append]
    exact Or.imp id (Or.imp id h.returns)
  · obtain ⟨body, tail, rfl, htail, hbody, hneat⟩ := h.ends
    refine ⟨Text.glyphs .code p ++ (Text.glyphs kind s ++ body), tail, by simp, ?_, ?_, fun ht => ?_⟩
    · have hps : (p ++ s).getLast? = s.getLast? := by
        rw [List.getLast?_append, List.getLast?_eq_some_getLast hne]
        rfl
      rw [htail, terminator, terminator]
      simp only [Text.ofGlyphs_append, Text.ofGlyphs_glyphs]
      rw [← List.append_assoc, Text.terminator_of_whole (by simp [hp, hs]) (by rwa [hps])]
    · simp [hp, hs, hbody]
    · exact .append_literal hk _ (fun he => absurd he hne) (hneat (by rwa [hcomment] at ht))

/-- The line in progress ends inside a literal. -/
theorem literal_line {kind : Kind} (hk : kind.isLiteral = true) {p a : Text} (hp : '\n' ∉ p)
    (ha : '\n' ∉ a) (hs : p = [] ∨ Text.isSolid (a ++ ['\n']).head? = true) (touched : Bool) :
    Tracks touched (Text.glyphs .code p ++ Text.glyphs kind (a ++ ['\n']))
      (Text.glyphs .code p ++ Text.glyphs kind (a ++ ['\n'])) := by
  refine ⟨fun _ _ => rfl, rfl, ?_, id, ?_⟩
  · intro g hg
    rcases List.mem_append.1 hg with hg | hg
    · exact Text.ink_or_blank g hg
    · exact .inl (Text.ink_of_literal hk hg)
  · have happ := Text.splitTerminator_append (a ++ ['\n'])
    refine ⟨Text.glyphs .code p ++ (Text.glyphs kind (Text.splitTerminator (a ++ ['\n'])).1 ++ []),
      Text.glyphs kind (Text.splitTerminator (a ++ ['\n'])).2, ?_, ?_, ?_, fun _ => ?_⟩
    · rw [List.append_nil, List.append_assoc, ← Text.glyphs_append, happ]
    · rw [terminator, Text.ofGlyphs_append, Text.ofGlyphs_glyphs, Text.ofGlyphs_glyphs,
        Text.ofGlyphs_glyphs, Text.terminator_of_solid hs]
    · simp [hp, Text.not_mem_body ha]
    · refine .append_literal hk _ (fun he => ?_) (by simp [EndsNeat])
      rcases hs with rfl | hs
      · rfl
      · rw [he, List.nil_append] at happ
        rw [← happ] at hs
        cases hc : (Text.splitTerminator (a ++ ['\n'])).2.head? with
        | none => simp [hc, Text.isSolid] at hs
        | some c => simp [hc, Text.isSolid, Text.white_terminator _ c (List.mem_of_head? hc)] at hs

/-- What was written for a line from which a comment was taken out is written for
the line that had the comment. -/
theorem retract {σ' : List Glyph} (h : Tracks true σ' ω) (hc : touched = true ∨ HasComment σ)
    (hink : σ'.filter isInk = σ.filter isInk)
    (hr : '\r' ∈ Text.ofGlyphs σ' → '\r' ∈ Text.ofGlyphs σ)
    (ht : terminator σ' = terminator σ ∨ terminator σ' = '\r' :: terminator σ) :
    Tracks touched σ ω := by
  refine ⟨fun ht hno => absurd hc (by simp [ht, hno]), h.ink.trans hink, h.clean,
    fun hω => hr (h.returns hω), ?_⟩
  obtain ⟨body, tail, rfl, htail, hbody, hneat⟩ := h.ends
  rcases ht with ht | ht
  · exact ⟨body, tail, rfl, htail.trans ht, hbody, fun _ => hneat (.inl rfl)⟩
  · -- the carriage return joins the body and is no blank
    rw [ht] at htail
    obtain ⟨g, tail, rfl, hg, htail⟩ := List.map_eq_cons_iff.1 htail
    refine ⟨body ++ [g], tail, by simp, htail, by simp [hbody, hg], fun _ x hx hpad => ?_⟩
    rw [List.getLast?_concat] at hx
    obtain rfl := Option.some.inj hx
    rw [hg] at hpad
    cases hpad

/-- Where a row of the source is over, so is what is written for it. -/
theorem rows_line (h : Tracks touched σ ω) (ht : Text.isTerminated (Text.ofGlyphs σ) = true)
    (τ : List Glyph) : rows (ω ++ τ) = ω :: rows τ := by
  obtain ⟨body, tail, rfl, htail, hbody, -⟩ := h.ends
  rcases Text.terminator_cases ht with hn | hn
  · rw [terminator, hn] at htail
    obtain ⟨g, u, rfl, hg, hu⟩ := List.map_eq_cons_iff.1 htail
    obtain rfl := List.map_eq_nil_iff.1 hu
    simpa using Glyph.rows_line hbody hg τ
  · rw [terminator, hn] at htail
    obtain ⟨c, u, rfl, hc, hu⟩ := List.map_eq_cons_iff.1 htail
    obtain ⟨g, v, rfl, hg, hv⟩ := List.map_eq_cons_iff.1 hu
    obtain rfl := List.map_eq_nil_iff.1 hv
    have hbody' : '\n' ∉ Text.ofGlyphs (body ++ [c]) := by simp [hbody, hc]
    simpa using Glyph.rows_line hbody' hg τ

theorem rows_last (h : Tracks touched σ ω) (hσ : '\n' ∉ Text.ofGlyphs σ) : rows ω = [ω] := by
  obtain ⟨body, tail, rfl, htail, hbody, -⟩ := h.ends
  rw [terminator, Text.terminator_of_not_mem hσ, Text.ofGlyphs_eq_nil] at htail
  rw [htail, List.append_nil]
  exact rows_of_not_mem hbody

/-- Where no carriage return is bare the terminators agree. -/
theorem terminator_eq (h : Tracks touched σ ω)
    (hσ : '\r' ∈ Text.ofGlyphs σ → terminator σ = ['\r', '\n']) : terminator ω = terminator σ := by
  obtain ⟨body, tail, rfl, htail, hbody, -⟩ := h.ends
  rcases Text.terminator_append hbody (Text.ofGlyphs tail) with ht | ⟨hr, ht, -⟩
  · rw [terminator, Text.ofGlyphs_append, ht, htail, terminator, Text.terminator_terminator]
  · have hmem : '\r' ∈ Text.ofGlyphs (body ++ tail) := by
      simp [List.mem_of_getLast? hr]
    rw [← htail, ht] at hσ
    cases hσ (h.returns hmem)

end Tracks
end Glyph
end Gloss
