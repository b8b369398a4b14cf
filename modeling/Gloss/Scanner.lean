import Gloss.Cursor
import Gloss.Scan
/-!
# Scanner

A scanner gives the regions of a text one at a time (`next?`). Between calls it
remembers what it is inside of and where the region in progress started; when
it gives a run of code, its cursor already stands past the opener that ended
the run. `next?` would fail only if the cursor stood inside a character.
-/

namespace Gloss

/-- What a scanner is inside of. -/
inductive Mode where
  | code
  | lineComment
  | blockComment
  /-- `escaped`: an escape stands in front. -/
  | literal (kind : Kind) (quote : Char) (escaped : Bool)
  deriving DecidableEq, Repr

namespace Mode

/-- The mode an opener leads to. -/
def ofOpener (o : Opener) : Mode :=
  match o.kind with
  | .code => .code
  | .lineComment => .lineComment
  | .blockComment => .blockComment
  | .stringLiteral | .charLiteral => .literal o.kind (o.token.headD '\x00') false

def kind : Mode → Kind
  | .code => .code
  | .lineComment => .lineComment
  | .blockComment => .blockComment
  | .literal k _ _ => k

end Mode

/-- A text being scanned. -/
structure Scanner where
  rules : Rules
  cursor : Cursor
  mode : Mode := .code
  /-- Where the region in progress started. -/
  start : Nat := 0
  deriving DecidableEq

namespace Scanner

def ofText (r : Rules) (s : Text) : Scanner := { rules := r, cursor := .ofText s }

/-- The offset of the next character to be read. -/
def position (s : Scanner) : Nat := s.cursor.position

/-- Ends the region in progress here and goes on in `mode`. An empty region is
not given. -/
def finish (s : Scanner) (mode : Mode) : Option Region × Scanner :=
  let region? :=
    if h : s.start < s.position then some ⟨s.mode.kind, ⟨s.start, s.position, Nat.le_of_lt h⟩⟩
    else none
  (region?, { s with mode, start := s.position })

/-- One character further in the same region. -/
def extend? (s : Scanner) (mode : Mode := s.mode) : Option (Option Region × Scanner) :=
  s.cursor.advance?.map fun c => (none, { s with cursor := c, mode })

/-- One step, at the front of an opener, a closer, a line end or a character.
The scanner is not at the end. -/
def step? (s : Scanner) : Option (Option Region × Scanner) :=
  match s.mode with
  | .code =>
    match s.rules.openers.find? (s.cursor.startsWith ·.token) with
    | some o =>
      let (region?, s) := s.finish (.ofOpener o)
      some (region?, { s with cursor := s.cursor.skip (Text.width o.token) })
    | none => s.extend?
  | .lineComment => if s.cursor.atLineEnd then some (s.finish .code) else s.extend?
  | .blockComment =>
    if !s.rules.blockEnd.isEmpty && s.cursor.startsWith s.rules.blockEnd then
      some ({ s with cursor := s.cursor.skip (Text.width s.rules.blockEnd) }.finish .code)
    else s.extend?
  | .literal k q escaped =>
    if escaped then
      s.cursor.advanceLineAware?.map fun c => (none, { s with cursor := c, mode := .literal k q false })
    else if s.rules.escape = some s.cursor.current then s.extend? (.literal k q true)
    else if s.cursor.current = q then
      s.cursor.advance?.map fun c => { s with cursor := c }.finish .code
    else if !s.rules.multiline && s.cursor.atLineEnd then some (s.finish .code)
    else s.extend?

/-! ## Steps make progress -/

/-- Bytes to go count twice; standing in code counts less than standing in a
construct. -/
def togo (s : Scanner) : Nat :=
  2 * (s.cursor.bytes.size - s.position) + if s.mode = .code then 0 else 1

end Scanner

theorem Cursor.position_lt_of_advance? {c d : Cursor} (he : c.atEnd = false) (h : c.advance? = some d) :
    d.source = c.source ∧ c.position < d.position := by
  unfold Cursor.advance? at h
  split at h
  · rename_i hn
    rw [Array.getElem?_eq_none_iff] at hn
    simp only [Cursor.atEnd, decide_eq_false_iff_not] at he
    exact absurd hn he
  · split at h
    · cases h; exact ⟨rfl, Nat.lt_succ_self _⟩
    · obtain ⟨x, -, rfl⟩ := Option.map_eq_some_iff.1 h
      exact ⟨rfl, Nat.lt_add_of_pos_right x.utf8Size_pos⟩

theorem Cursor.position_lt_of_advanceLineAware? {c d : Cursor} (he : c.atEnd = false)
    (h : c.advanceLineAware? = some d) : d.source = c.source ∧ c.position < d.position := by
  unfold Cursor.advanceLineAware? at h
  split at h
  · cases h; exact ⟨rfl, Nat.lt_add_of_pos_right (by decide)⟩
  · exact Cursor.position_lt_of_advance? he h

namespace Scanner

theorem togo_lt_of_position_lt {s t : Scanner} (he : s.cursor.atEnd = false)
    (hs : t.cursor.source = s.cursor.source) (hp : s.position < t.position) : t.togo < s.togo := by
  simp only [Cursor.atEnd, decide_eq_false_iff_not, Nat.not_le] at he
  simp only [togo, position, Cursor.bytes, hs] at *
  split <;> split <;> omega

theorem togo_lt_of_extend? {s t : Scanner} {mode : Mode} (he : s.cursor.atEnd = false)
    (h : s.extend? mode = some (none, t)) : t.togo < s.togo := by
  obtain ⟨c, hc, ht⟩ := Option.map_eq_some_iff.1 h
  cases ht
  obtain ⟨hs, hp⟩ := Cursor.position_lt_of_advance? he hc
  exact togo_lt_of_position_lt he hs hp

theorem togo_finish_code {s : Scanner} (h : s.mode ≠ .code) : (s.finish .code).2.togo < s.togo := by
  simp only [finish, togo, position, h, if_true, if_false]
  omega

theorem position_lt_skip {s : Scanner} (he : s.cursor.atEnd = false) {token : Text}
    (h : token ≠ []) : s.position < (s.cursor.skip (Text.width token)).position := by
  have := Text.width_pos h
  simp only [Cursor.atEnd, decide_eq_false_iff_not, Nat.not_le] at he
  simp only [Cursor.skip, position]
  omega

theorem togo_lt_of_step? {s t : Scanner} (he : s.cursor.atEnd = false)
    (h : s.step? = some (none, t)) : t.togo < s.togo := by
  unfold step? at h
  split at h
  · split at h
    · rename_i o ho
      simp only [Option.some.injEq, Prod.mk.injEq] at h
      rw [← h.2]
      exact togo_lt_of_position_lt he rfl
        (position_lt_skip he (s.rules.token_ne_nil (List.mem_of_find?_eq_some ho)))
    · exact togo_lt_of_extend? he h
  · rename_i hm
    split at h
    · rw [← (Prod.mk.inj (Option.some.inj h)).2]; exact togo_finish_code (by simp [hm])
    · exact togo_lt_of_extend? he h
  · rename_i hm
    split at h
    · rw [← (Prod.mk.inj (Option.some.inj h)).2]
      refine Nat.lt_of_lt_of_le (togo_finish_code (by simp [hm])) ?_
      simp only [togo, position, Cursor.skip, Cursor.bytes]
      omega
    · exact togo_lt_of_extend? he h
  · rename_i hm
    split at h
    · obtain ⟨c, hc, ht⟩ := Option.map_eq_some_iff.1 h
      cases ht
      obtain ⟨hs, hp⟩ := Cursor.position_lt_of_advanceLineAware? he hc
      exact togo_lt_of_position_lt he hs hp
    split at h
    · exact togo_lt_of_extend? he h
    split at h
    · obtain ⟨c, hc, ht⟩ := Option.map_eq_some_iff.1 h
      obtain ⟨hs, hp⟩ := Cursor.position_lt_of_advance? he hc
      rw [← (Prod.mk.inj ht).2]
      exact togo_lt_of_position_lt he hs hp
    split at h
    · rw [← (Prod.mk.inj (Option.some.inj h)).2]; exact togo_finish_code (by simp [hm])
    · exact togo_lt_of_extend? he h

/-- The next region, if one is left. -/
def next? (s : Scanner) : Option (Option Region × Scanner) :=
  if _he : s.cursor.atEnd then some (s.finish .code)
  else
    match _h : s.step? with
    | none => none
    | some (some region, t) => some (some region, t)
    | some (none, t) => t.next?
termination_by s.togo
decreasing_by exact togo_lt_of_step? (by simpa using _he) _h

end Scanner
end Gloss
