import Gloss.Proofs.Construct
/-!
# Reading a text

A text is a run of code up to the next opener, then a construct, then again.
`lexemes_code` and `lexemes_construct` take the lexemes of a text apart that
way, whatever text it is; `reading` and `readingChars` are the inductions along
it, by lexemes and by the characters of code.
-/

namespace Gloss.Rules
variable {r : Rules}

/-- A run of code when `rest` follows: nothing opens in it, and something opens
behind it unless the text is over. -/
structure Code (r : Rules) (code rest : Text) : Prop where
  quiet : ∀ a b, code = a ++ b → b ≠ [] → r.opener? (b ++ rest) = none
  stops : rest = [] ∨ ∃ o, r.opener? rest = some o

theorem code_cutCode (s : Text) : r.Code (r.cutCode s).1 (r.cutCode s).2 := by
  induction s with
  | nil => exact ⟨by simp [cutCode], .inl rfl⟩
  | cons c s ih =>
    rw [cutCode]
    split
    · rename_i h
      exact ⟨by simp, .inr (Option.isSome_iff_exists.1 h)⟩
    · rename_i h
      refine ⟨?_, ih.stops⟩
      intro a b he hb
      rcases a with _ | ⟨d, a⟩
      · rw [List.nil_append] at he
        rw [← he, List.cons_append, cutCode_append]
        simpa using h
      · rw [List.cons_append, List.cons.injEq] at he
        exact ih.quiet a b he.2 hb

theorem cutCode_of_code {code rest : Text} (h : r.Code code rest) :
    r.cutCode (code ++ rest) = (code, rest) := by
  induction code with
  | nil =>
    rcases h.stops with rfl | ⟨o, ho⟩
    · rfl
    · rcases rest with _ | ⟨c, rest⟩
      · rfl
      · simp [cutCode, ho]
  | cons c code ih =>
    have hc : r.opener? (c :: (code ++ rest)) = none := h.quiet [] (c :: code) rfl (by simp)
    have ih := ih ⟨fun a b he hb => h.quiet (c :: a) b (by rw [he, List.cons_append]) hb, h.stops⟩
    rw [List.cons_append, cutCode, hc, ih]
    rfl

/-- A run of code does not end between the two characters of a line end. -/
theorem Code.not_return {code rest : Text} (hc : r.Code code rest) : rest.head? ≠ some '\n' := by
  rcases hc.stops with rfl | ⟨o, ho⟩
  · simp
  · intro hn
    obtain ⟨t, rfl⟩ := List.head?_eq_some_iff.1 hn
    rw [opener?_white (by decide)] at ho
    cases ho

/-- A character of code makes the run behind it one longer. -/
theorem exists_code {c : Char} {s : Text} (h : r.opener? (c :: s) = none) :
    ∃ code rest, s = code ++ rest ∧ r.Code code rest ∧ r.Code (c :: code) rest := by
  refine ⟨_, _, (r.cutCode_append s).symm, code_cutCode s, ?_⟩
  have hc := r.code_cutCode (c :: s)
  rwa [show r.cutCode (c :: s) = (c :: (r.cutCode s).1, (r.cutCode s).2) by
    rw [cutCode, h]; rfl] at hc

/-! ## The first lexeme -/

@[simp] theorem lexemes_nil : r.lexemes [] = [] := by
  rw [lexemes.eq_def]
  split
  · rename_i h
    simp at h
  · rfl

theorem lexemes_code {code rest : Text} (hne : code ≠ []) (h : r.Code code rest) :
    r.lexemes (code ++ rest) = ⟨.code, code, true⟩ :: r.lexemes rest := by
  obtain ⟨c, code, rfl⟩ := List.exists_cons_of_ne_nil hne
  have hc : r.opener? (c :: (code ++ rest)) = none := h.quiet [] (c :: code) rfl (by simp)
  have hcut := cutCode_of_code h
  rw [List.cons_append] at hcut ⊢
  rw [lexemes.eq_def]
  split
  · rename_i h
    rw [hc] at h
    cases h
  · simp only [hcut]

theorem lexemes_construct {o : Opener} {inside rest : Text} {closed : Bool}
    (ho : r.opener? (o.token ++ (inside ++ rest)) = some o) (h : r.Ends o inside closed rest) :
    r.lexemes (o.token ++ (inside ++ rest)) =
      ⟨o.kind, o.token ++ inside, closed⟩ :: r.lexemes rest := by
  have hcut := cut_of_ends (mem_of_opener? ho).1 h
  rw [lexemes.eq_def]
  split
  · rename_i p hp
    rw [ho] at hp
    cases hp
    simp only [List.drop_left, hcut]
  · rename_i hp
    rw [ho] at hp
    cases hp

theorem exists_ends {o : Opener} {s : Text} (h : r.opener? s = some o) :
    ∃ inside closed rest, s = o.token ++ (inside ++ rest) ∧ r.Ends o inside closed rest := by
  obtain ⟨hm, t, rfl⟩ := mem_of_opener? h
  exact ⟨_, _, _, by rw [cut_append], ends_cut hm t⟩

/-! ## Induction along a text -/

theorem length_rest_lt {o : Opener} {inside rest : Text}
    (ho : r.opener? (o.token ++ (inside ++ rest)) = some o) :
    rest.length < (o.token ++ (inside ++ rest)).length := by
  have := List.length_pos_iff.2 (token_ne_nil (mem_of_opener? ho).1)
  simp only [List.length_append]
  omega

/-- Induction along the lexemes of a text. -/
@[elab_as_elim]
theorem reading (r : Rules) {motive : Text → Prop} (nil : motive [])
    (code : ∀ code rest, code ≠ [] → r.Code code rest → motive rest → motive (code ++ rest))
    (construct : ∀ o inside closed rest, r.opener? (o.token ++ (inside ++ rest)) = some o →
      r.Ends o inside closed rest → motive rest → motive (o.token ++ (inside ++ rest)))
    (s : Text) : motive s := by
  match hs : r.opener? s with
  | some o =>
    obtain ⟨inside, closed, rest, rfl, he⟩ := exists_ends hs
    exact construct o inside closed rest hs he (reading r nil code construct rest)
  | none =>
    match s with
    | [] => exact nil
    | c :: s =>
      rw [← r.cutCode_append (c :: s)]
      refine code _ _ ?_ (code_cutCode (c :: s)) (reading r nil code construct _)
      rw [cutCode, hs]
      simp
termination_by s.length
decreasing_by
  · rw [‹s = o.token ++ (inside ++ rest)›]
    exact length_rest_lt hs
  · exact length_cutCode_lt hs

/-- Induction along a text, one character of code at a time. -/
@[elab_as_elim]
theorem readingChars (r : Rules) {motive : Text → Prop} (nil : motive [])
    (code : ∀ c rest, r.opener? (c :: rest) = none → motive rest → motive (c :: rest))
    (construct : ∀ o inside closed rest, r.opener? (o.token ++ (inside ++ rest)) = some o →
      r.Ends o inside closed rest → motive rest → motive (o.token ++ (inside ++ rest)))
    (s : Text) : motive s := by
  match hs : r.opener? s with
  | some o =>
    obtain ⟨inside, closed, rest, rfl, he⟩ := exists_ends hs
    have := length_rest_lt hs
    exact construct o inside closed rest hs he (readingChars r nil code construct rest)
  | none =>
    match s with
    | [] => exact nil
    | c :: s => exact code c s hs (readingChars r nil code construct s)
termination_by s.length

theorem text_ne_nil {s : Text} {l : Lexeme} (h : l ∈ r.lexemes s) : l.text ≠ [] := by
  induction s using reading r with
  | nil => simp at h
  | code code rest hne hc ih =>
    rw [lexemes_code hne hc] at h
    rcases List.mem_cons.1 h with rfl | h
    · exact hne
    · exact ih h
  | construct o inside closed rest ho he ih =>
    rw [lexemes_construct ho he] at h
    rcases List.mem_cons.1 h with rfl | h
    · simp [token_ne_nil (mem_of_opener? ho).1]
    · exact ih h

end Gloss.Rules
