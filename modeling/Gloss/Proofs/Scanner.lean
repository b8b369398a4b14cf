import Gloss.Proofs.Cursor
import Gloss.Proofs.Lexeme
import Gloss.Scanner
/-!
# What a scanner gives

A scanner is asked for one region after the other (`Gives`). Whatever it has
been asked for, it stands inside a region, `Scanner.within`: behind the text it
is done with and what it has read of the region in progress. `step?_code` and its
like say what one step does there, in each mode.
-/

namespace Gloss.Scanner
variable {r : Rules} {mode : Mode} {before inside rest s : Text} {c : Char}

/-! ## Call after call -/

/-- The regions a scanner gives until it has none left. -/
inductive Gives : Scanner → List Region → Prop
  | done {s t : Scanner} : s.next? = some (none, t) → s.Gives []
  | more {s t : Scanner} {g : Region} {gs : List Region} :
      s.next? = some (some g, t) → t.Gives gs → s.Gives (g :: gs)

theorem Gives.unique {s : Scanner} {gs hs : List Region} (hg : s.Gives gs) (hh : s.Gives hs) :
    gs = hs := by
  induction hg generalizing hs with
  | done h =>
    cases hh with
    | done => rfl
    | more h' => simp [h] at h'
  | more h _ ih =>
    cases hh with
    | done h' => simp [h] at h'
    | more h' hh =>
      rw [h, Option.some.injEq, Prod.mk.injEq, Option.some.injEq] at h'
      obtain ⟨rfl, rfl⟩ := h'
      rw [ih hh]

theorem next?_of_step? {s t : Scanner} {g? : Option Region} (he : s.cursor.atEnd = false)
    (h : s.step? = some (g?, t)) : s.next? = if g?.isSome then some (g?, t) else t.next? := by
  rw [next?, dif_neg (by simp [he])]
  split <;> rename_i h'
  · rw [h] at h'
    cases h'
  · rw [h, Option.some.injEq, Prod.mk.injEq] at h'
    obtain ⟨rfl, rfl⟩ := h'
    rfl
  · rw [h, Option.some.injEq, Prod.mk.injEq] at h'
    obtain ⟨rfl, rfl⟩ := h'
    rfl

/-- A step that gives nothing goes unnoticed. -/
theorem gives_iff_of_step? {s t : Scanner} {gs : List Region} (he : s.cursor.atEnd = false)
    (h : s.step? = some (none, t)) : s.Gives gs ↔ t.Gives gs := by
  have hn : s.next? = t.next? := next?_of_step? he h
  constructor
  · intro hs
    cases hs with
    | done hd => exact .done (hn ▸ hd)
    | more hm ht => exact .more (hn ▸ hm) ht
  · intro ht
    cases ht with
    | done hd => exact .done (hn.trans hd)
    | more hm ht => exact .more (hn.trans hm) ht

theorem gives_cons_of_step? {s t : Scanner} {g : Region} {gs : List Region}
    (he : s.cursor.atEnd = false) (h : s.step? = some (some g, t)) (ht : t.Gives gs) :
    s.Gives (g :: gs) :=
  .more (next?_of_step? he h) ht

/-! ## Inside a region -/

/-- The scanner that is done with `before`, has read `inside` of a region and
has `rest` in front of it. -/
def within (r : Rules) (mode : Mode) (before inside rest : Text) : Scanner where
  rules := r
  cursor := .between (before ++ inside) rest
  mode := mode
  start := Text.width before

/-- The region read so far. -/
def regionOf (kind : Kind) (before inside : Text) : Region :=
  ⟨kind, .ofLength (Text.width before) (Text.width inside)⟩

@[simp] theorem rules_within : (within r mode before inside rest).rules = r := rfl

@[simp] theorem mode_within : (within r mode before inside rest).mode = mode := rfl

@[simp] theorem cursor_within :
    (within r mode before inside rest).cursor = .between (before ++ inside) rest := rfl

theorem ofText_eq (r : Rules) (s : Text) : ofText r s = within r .code [] [] s := rfl

theorem atEnd_within : (within r mode before inside (c :: s)).cursor.atEnd = false :=
  Cursor.atEnd_between

theorem atEnd_opener {o : Opener} (ho : o ∈ r.openers) :
    (within r mode before inside (o.token ++ rest)).cursor.atEnd = false := by
  obtain ⟨c, t, ht⟩ := List.exists_cons_of_ne_nil (Rules.token_ne_nil ho)
  rw [ht]
  exact atEnd_within

theorem extend?_within (mode' : Mode) :
    (within r mode before inside (c :: s)).extend? mode' =
      some (none, within r mode' before (inside ++ [c]) s) := by
  simp [extend?, within]

theorem finish_within_nil (mode' : Mode) :
    (within r mode before [] rest).finish mode' = (none, within r mode' before [] rest) := by
  simp [finish, within, position]

theorem finish_within (mode' : Mode) (h : inside ≠ []) :
    (within r mode before inside rest).finish mode' =
      (some (regionOf mode.kind before inside), within r mode' (before ++ inside) [] rest) := by
  have := Text.width_pos h
  simp [finish, within, position, regionOf, Span.ofLength, this]

theorem next?_within_nil (mode : Mode) (inside : Text) :
    (within r mode before inside []).next? =
      some ((within r mode before inside []).finish .code) := by
  rw [next?, dif_pos (by simp [within])]

/-- At the end of the text the region in progress ends. -/
theorem gives_cons_of_end {gs : List Region} (h : inside ≠ [])
    (hs : (within r .code (before ++ inside) [] []).Gives gs) :
    (within r mode before inside []).Gives (regionOf mode.kind before inside :: gs) := by
  refine .more ?_ hs
  rw [next?_within_nil, finish_within _ h]

theorem gives_nil : (within r .code before [] []).Gives [] :=
  .done (by rw [next?_within_nil, finish_within_nil])

/-! ## One step -/

theorem skip_within (token : Text) :
    { within r mode before inside (token ++ rest) with
        cursor := (Cursor.between (before ++ inside) (token ++ rest)).skip (Text.width token) } =
      within r mode before (inside ++ token) rest := by
  rw [Cursor.skip_between, List.append_assoc]
  rfl

theorem step?_code (before inside : Text) {o : Opener}
    (h : r.opener? (o.token ++ rest) = some o) :
    (within r .code before inside (o.token ++ rest)).step? =
      some (((within r .code before inside (o.token ++ rest)).finish (.ofOpener o)).1,
        within r (.ofOpener o) (before ++ inside) o.token rest) := by
  rw [step?, mode_within]
  simp only [cursor_within, rules_within, Cursor.startsWith_between]
  rw [show r.openers.find? (·.token.isPrefixOf (o.token ++ rest)) = some o from h]
  dsimp only [finish]
  rw [cursor_within, Cursor.skip_between]
  rfl

theorem step?_code_of_none (h : r.opener? (c :: s) = none) :
    (within r .code before inside (c :: s)).step? =
      some (none, within r .code before (inside ++ [c]) s) := by
  rw [step?, mode_within]
  simp only [cursor_within, rules_within, Cursor.startsWith_between]
  rw [show r.openers.find? (·.token.isPrefixOf (c :: s)) = none from h]
  exact extend?_within .code

theorem step?_lineComment :
    (within r .lineComment before inside (c :: s)).step? =
      if Text.atLineEnd (c :: s) then
        some ((within r .lineComment before inside (c :: s)).finish .code)
      else some (none, within r .lineComment before (inside ++ [c]) s) := by
  rw [step?, mode_within]
  dsimp only
  rw [extend?_within, cursor_within, Cursor.atLineEnd_between]

theorem step?_blockComment :
    (within r .blockComment before inside (c :: s)).step? =
      if !r.blockEnd.isEmpty && r.blockEnd.isPrefixOf (c :: s) then
        some ((within r .blockComment before (inside ++ r.blockEnd)
          ((c :: s).drop r.blockEnd.length)).finish .code)
      else some (none, within r .blockComment before (inside ++ [c]) s) := by
  rw [step?, mode_within]
  dsimp only
  rw [extend?_within, cursor_within, rules_within, Cursor.startsWith_between]
  split
  · rename_i hp
    obtain ⟨t, ht⟩ := List.isPrefixOf_iff_prefix.1 (Bool.and_eq_true_iff.1 hp).2
    rw [← ht, List.drop_left, ← skip_within]
    rfl
  · rfl

theorem step?_escaped {kind : Kind} {quote : Char} :
    (within r (.literal kind quote true) before inside (c :: s)).step? =
      some (none, if c = '\r' ∧ s.head? = some '\n' then
        within r (.literal kind quote false) before (inside ++ ['\r', '\n']) s.tail
      else within r (.literal kind quote false) before (inside ++ [c]) s) := by
  rw [step?, mode_within]
  dsimp only
  rw [cursor_within, if_pos rfl]
  split
  · rename_i h
    obtain ⟨d, s, rfl⟩ := List.exists_cons_of_ne_nil (show s ≠ [] by rintro rfl; simp at h)
    obtain ⟨rfl, h⟩ := h
    obtain rfl : d = '\n' := by simpa using h
    rw [Cursor.advanceLineAware?_return_feed, List.append_assoc]
    rfl
  · rename_i h
    rw [Cursor.advanceLineAware?_between h, List.append_assoc]
    rfl

theorem step?_literal {kind : Kind} {quote : Char} :
    (within r (.literal kind quote false) before inside (c :: s)).step? =
      if r.escape = some c then
        some (none, within r (.literal kind quote true) before (inside ++ [c]) s)
      else if c = quote then
        some ((within r (.literal kind quote false) before (inside ++ [c]) s).finish .code)
      else if !r.multiline && Text.atLineEnd (c :: s) then
        some ((within r (.literal kind quote false) before inside (c :: s)).finish .code)
      else some (none, within r (.literal kind quote false) before (inside ++ [c]) s) := by
  rw [step?, mode_within]
  dsimp only
  rw [if_neg (by simp), extend?_within, extend?_within, cursor_within, rules_within,
    Cursor.current_between, Cursor.atLineEnd_between, Cursor.advance?_between, List.append_assoc]
  rfl

end Gloss.Scanner
