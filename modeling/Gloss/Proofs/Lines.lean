import Gloss.Text.Lines
/-!
# Lines and terminators

A text is read line by line along `Text.byLines`: a line with its line feed and
then the rest, or a last line without one. `splitTerminator_append_cases` says
what becomes of a line's terminator when more text is put in front of it.
-/

namespace Gloss.Text

/-! ## The lines of a text -/

theorem lines_of_not_mem {s : Text} (hne : s ≠ []) (h : '\n' ∉ s) : lines s = [s] := by
  induction s with
  | nil => exact absurd rfl hne
  | cons c s ih =>
    obtain ⟨hc, hs⟩ := not_or.1 (mt List.mem_cons.2 h)
    rw [lines, if_neg fun hc' => hc hc'.symm]
    by_cases he : s = []
    · simp [he, lines]
    · rw [ih he hs]

theorem lines_feed {a : Text} (h : '\n' ∉ a) (s : Text) :
    lines (a ++ '\n' :: s) = (a ++ ['\n']) :: lines s := by
  induction a with
  | nil => simp [lines]
  | cons c a ih =>
    obtain ⟨hc, ha⟩ := not_or.1 (mt List.mem_cons.2 h)
    rw [List.cons_append, lines, if_neg fun hc' => hc hc'.symm, ih ha]
    rfl

/-- Induction along the lines of a text. -/
@[elab_as_elim]
theorem byLines {motive : Text → Prop} (nil : motive [])
    (last : ∀ s, s ≠ [] → '\n' ∉ s → motive s)
    (line : ∀ a s, '\n' ∉ a → motive s → motive (a ++ '\n' :: s)) (s : Text) : motive s := by
  by_cases h : '\n' ∈ s
  · obtain ⟨a, t, rfl, ha⟩ := List.eq_append_cons_of_mem h
    have : t.length < (a ++ '\n' :: t).length := by simp; omega
    exact line a t ha (byLines nil last line t)
  · by_cases hne : s = []
    · exact hne ▸ nil
    · exact last s hne h
termination_by s.length

/-! ## Terminators -/

theorem isTerminated_append {s : Text} (hne : s ≠ []) (a : Text) :
    isTerminated (a ++ s) = isTerminated s := by
  rw [isTerminated, isTerminated, List.getLast?_append, List.getLast?_eq_some_getLast hne]
  rfl

theorem isTerminated_feed (a : Text) : isTerminated (a ++ ['\n']) = true :=
  isTerminated_append (by simp) a

theorem isTerminated_line {s : Text} (h : s = [] ∨ isTerminated s = true) (a : Text) :
    isTerminated (a ++ '\n' :: s) = true := by
  rcases h with rfl | h
  · exact isTerminated_feed a
  · rw [isTerminated_append (by simp), isTerminated, List.getLast?_cons]
    rw [isTerminated, beq_iff_eq] at h
    rw [h]
    rfl

theorem isTerminated_of_not_mem {s : Text} (h : '\n' ∉ s) : isTerminated s = false := by
  rw [isTerminated, beq_eq_false_iff_ne]
  exact fun hl => h (List.mem_of_getLast? hl)

theorem splitTerminator_cases (s : Text) :
    (isTerminated s = false ∧ splitTerminator s = (s, [])) ∨
    (∃ a, s = a ++ ['\n'] ∧ a.getLast? ≠ some '\r' ∧ splitTerminator s = (a, ['\n'])) ∨
    (∃ a, s = a ++ ['\r', '\n'] ∧ splitTerminator s = (a, ['\r', '\n'])) := by
  obtain ⟨x, rfl⟩ : ∃ x : Text, s = x.reverse := ⟨s.reverse, by simp⟩
  rcases x with _ | ⟨c, _ | ⟨d, x⟩⟩
  · exact .inl ⟨rfl, rfl⟩
  · by_cases hc : c = '\n'
    · subst hc
      exact .inr (.inl ⟨[], rfl, by simp, rfl⟩)
    · exact .inl ⟨by simp [isTerminated, hc], by simp [splitTerminator, hc]⟩
  · by_cases hc : c = '\n'
    · subst hc
      by_cases hd : d = '\r'
      · subst hd
        exact .inr (.inr ⟨x.reverse, by simp, by simp [splitTerminator]⟩)
      · exact .inr (.inl ⟨(d :: x).reverse, by simp, by simpa using hd, by simp [splitTerminator, hd]⟩)
    · exact .inl ⟨by simp [isTerminated, hc], by simp [splitTerminator, hc]⟩

theorem white_terminator (s : Text) : ∀ c ∈ (splitTerminator s).2, isWhite c = true := by
  rcases splitTerminator_cases s with ⟨-, h⟩ | ⟨a, -, -, h⟩ | ⟨a, -, h⟩ <;> rw [h] <;> simp <;> decide

/-- A line's terminator stays the same when text comes in front, unless the line
is at most a line feed: then it may be longer by some white space of that text. -/
theorem splitTerminator_append_cases (g s : Text) :
    splitTerminator (g ++ s) = (g ++ (splitTerminator s).1, (splitTerminator s).2) ∨
    (s = [] ∨ s = ['\n']) ∧ ∃ a b, g = a ++ b ∧ (∀ c ∈ b, isWhite c = true) ∧
      splitTerminator (g ++ s) = (a, b ++ s) := by
  obtain ⟨x, rfl⟩ : ∃ x : Text, s = x.reverse := ⟨s.reverse, by simp⟩
  rcases x with _ | ⟨c, _ | ⟨d, x⟩⟩
  · refine .inr ⟨.inl rfl, (splitTerminator g).1, (splitTerminator g).2,
      (splitTerminator_append g).symm, white_terminator g, by simp⟩
  · by_cases hc : c = '\n'
    · subst hc
      refine .inr ⟨.inr rfl, ?_⟩
      rcases splitTerminator_cases (g ++ ['\n']) with ⟨h, -⟩ | ⟨a, ha, -, h⟩ | ⟨a, ha, h⟩
      · rw [isTerminated_feed] at h
        cases h
      · obtain rfl := List.append_cancel_right ha
        exact ⟨g, [], by simp, by simp, h⟩
      · rw [show a ++ ['\r', '\n'] = (a ++ ['\r']) ++ ['\n'] by simp] at ha
        obtain rfl := List.append_cancel_right ha
        exact ⟨a, ['\r'], rfl, by simp [isWhite], h⟩
    · refine .inl ?_
      simp [splitTerminator, hc]
  · refine .inl ?_
    by_cases hc : c = '\n'
    · subst hc
      by_cases hd : d = '\r'
      · subst hd
        simp [splitTerminator]
      · simp [splitTerminator, hd]
    · simp [splitTerminator, hc]

theorem terminator_of_not_terminated {s : Text} (h : isTerminated s = false) :
    (splitTerminator s).2 = [] := by
  rcases splitTerminator_cases s with ⟨-, hs⟩ | ⟨b, rfl, -⟩ | ⟨b, rfl, -⟩
  · rw [hs]
  · rw [isTerminated_feed] at h
    cases h
  · rw [isTerminated_append (by simp)] at h
    cases h

theorem terminator_cases {s : Text} (h : isTerminated s = true) :
    (splitTerminator s).2 = ['\n'] ∨ (splitTerminator s).2 = ['\r', '\n'] := by
  rcases splitTerminator_cases s with ⟨h', -⟩ | ⟨b, -, -, hs⟩ | ⟨b, -, hs⟩
  · rw [h] at h'
    cases h'
  · exact .inl (by rw [hs])
  · exact .inr (by rw [hs])

theorem isTerminated_terminator {s : Text} (h : isTerminated s = true) :
    isTerminated (splitTerminator s).2 = true := by
  rcases terminator_cases h with hs | hs <;> rw [hs] <;> rfl

/-- A line has its line feed in its terminator. -/
theorem not_mem_body {a : Text} (h : '\n' ∉ a) : '\n' ∉ (splitTerminator (a ++ ['\n'])).1 := by
  have happ := splitTerminator_append (a ++ ['\n'])
  have hterm := isTerminated_terminator (isTerminated_feed a)
  rw [isTerminated, beq_iff_eq] at hterm
  obtain ⟨t, ht⟩ := List.getLast?_eq_some_iff.1 hterm
  rw [ht, ← List.append_assoc] at happ
  rw [← List.append_cancel_right happ, List.mem_append, not_or] at h
  exact h.1

/-- A terminator is its own terminator. -/
theorem terminator_terminator (s : Text) :
    (splitTerminator (splitTerminator s).2).2 = (splitTerminator s).2 := by
  rcases splitTerminator_cases s with ⟨-, h⟩ | ⟨a, -, -, h⟩ | ⟨a, -, h⟩ <;> rw [h] <;> rfl

theorem terminator_of_not_mem {s : Text} (h : '\n' ∉ s) : (splitTerminator s).2 = [] :=
  terminator_of_not_terminated (isTerminated_of_not_mem h)

theorem lineBody_of_not_mem {s : Text} (h : '\n' ∉ s) : lineBody s = s := by
  have happ := splitTerminator_append s
  rwa [terminator_of_not_mem h, List.append_nil] at happ

/-- Text in front of a line adds a carriage return to its terminator at most, -/
theorem terminator_append {p : Text} (hp : '\n' ∉ p) (s : Text) :
    (splitTerminator (p ++ s)).2 = (splitTerminator s).2 ∨
      p.getLast? = some '\r' ∧ s = ['\n'] ∧ (splitTerminator (p ++ s)).2 = ['\r', '\n'] := by
  rcases splitTerminator_append_cases p s with h | ⟨rfl | rfl, -⟩
  · exact .inl (by rw [h])
  · exact .inl (by rw [List.append_nil, terminator_of_not_mem hp]; rfl)
  · rcases splitTerminator_cases (p ++ ['\n']) with ⟨h, -⟩ | ⟨a, -, -, h⟩ | ⟨a, ha, h⟩
    · rw [isTerminated_feed] at h
      cases h
    · exact .inl (by rw [h]; rfl)
    · rw [show a ++ ['\r', '\n'] = (a ++ ['\r']) ++ ['\n'] by simp] at ha
      obtain rfl := List.append_cancel_right ha
      exact .inr ⟨by simp, rfl, by rw [h]⟩

/-- and none where no line end is cut in two, -/
theorem terminator_of_whole {p s : Text} (hp : '\n' ∉ p)
    (h : p.getLast? = some '\r' → s.head? ≠ some '\n') :
    (splitTerminator (p ++ s)).2 = (splitTerminator s).2 := by
  refine (terminator_append hp s).resolve_right ?_
  rintro ⟨hr, rfl, -⟩
  exact h hr rfl

/-- nor where the line starts with a solid character. -/
theorem terminator_of_solid {p s : Text} (h : p = [] ∨ isSolid s.head? = true) :
    (splitTerminator (p ++ s)).2 = (splitTerminator s).2 := by
  rcases h with rfl | h
  · rfl
  · rcases splitTerminator_append_cases p s with hs | ⟨rfl | rfl, -⟩
    · rw [hs]
    · cases h
    · cases h

end Gloss.Text
