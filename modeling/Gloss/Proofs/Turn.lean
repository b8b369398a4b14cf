import Gloss.Proofs.Scanner
/-!
# What a turn does

`turn?` is one turn of the loop that a call of a scanner runs. `Move` lists what
a turn can do inside a text: in code it passes a character or enters a
construct; in a construct it reads on, or it ends the construct where
`Mode.cut` ends it, and then `Scanner.ending` tells what ended it. `move`: a
turn always does one of these.
-/

namespace Gloss

/-- What the region in progress still holds, from here on, in a construct. -/
def Mode.cut (r : Rules) : Mode → Text → Cut
  | .code, s => ⟨[], true, s⟩
  | .lineComment, s => cutLine s
  | .blockComment, s => cutBlock r.blockEnd s
  | .literal _ quote escaped, s => cutLiteral r.escape r.multiline quote escaped s

/-- The construct has an end of its own: an end token or a quote. -/
def Kind.hasCloser : Kind → Bool
  | .blockComment | .stringLiteral | .charLiteral => true
  | _ => false

/-- What ends a region. -/
inductive Ending where
  /-- An opener stands behind code. -/
  | opener
  /-- The end token of a block comment or the quote of a literal was read. -/
  | closer
  | lineEnd
  | textEnd
  deriving DecidableEq, Repr

/-- What ends a construct with an end of its own, when `rest` follows it and
`closed` says whether it met that end. -/
def Ending.behind (closed : Bool) (rest : Text) : Ending :=
  if closed then .closer else if rest = [] then .textEnd else .lineEnd

namespace Scanner

/-- One turn of a call. At the end of the text the region in progress ends. -/
def turn? (s : Scanner) : Option (Option Region × Scanner) :=
  if s.cursor.atEnd then some (s.finish .code) else s.step?

/-- What ends the region in progress, if the next turn gives it: in a literal the
turn gives the region behind its quote or in front of a line end. -/
def ending (s : Scanner) : Ending :=
  if s.cursor.atEnd then .textEnd
  else match s.mode with
    | .code => .opener
    | .lineComment => .lineEnd
    | .blockComment => .closer
    | .literal _ quote _ => if s.cursor.current = quote then .closer else .lineEnd

/-- What a turn does that starts in `mode` with `rest` in front of the scanner. -/
inductive Move (r : Rules) (before inside : Text) :
    Mode → Text → Option Region × Scanner → Prop
  /-- A character of code is passed. -/
  | code {c : Char} {rest : Text} : r.opener? (c :: rest) = none →
      Move r before inside .code (c :: rest) (none, within r .code before (inside ++ [c]) rest)
  /-- A construct is entered. The code in front of it is given, if there is any. -/
  | opens {o : Opener} {rest : Text} : r.opener? (o.token ++ rest) = some o →
      Move r before inside .code (o.token ++ rest)
        (((within r .code before inside (o.token ++ rest)).finish (.ofOpener o)).1,
          within r (.ofOpener o) (before ++ inside) o.token rest)
  /-- A construct goes on. -/
  | reads (read : Text) {mode mode' : Mode} {rest : Text} : read ≠ [] → mode ≠ .code → mode' ≠ .code →
      mode'.kind = mode.kind → mode.cut r (read ++ rest) = (mode'.cut r rest).push read →
      Move r before inside mode (read ++ rest) (none, within r mode' before (inside ++ read) rest)
  /-- The construct, or the text, is over. -/
  | ends (read : Text) {mode : Mode} {rest : Text} {closed : Bool} : (mode = .code → read ++ rest = []) →
      mode.cut r (read ++ rest) = ⟨read, closed, rest⟩ →
      (mode.kind.hasCloser = true →
        (within r mode before inside (read ++ rest)).ending = .behind closed rest) →
      Move r before inside mode (read ++ rest)
        ((within r mode before (inside ++ read) rest).finish .code)

theorem turn?_of_step? {s : Scanner} (he : s.cursor.atEnd = false) : s.turn? = s.step? := by
  rw [turn?, he, if_neg (by simp)]

variable {r : Rules} {before inside : Text}

theorem kind_ofOpener (o : Opener) : (Mode.ofOpener o).kind = o.kind := by
  unfold Mode.ofOpener
  cases o.kind <;> rfl

theorem ofOpener_ne_code {o : Opener} (ho : o ∈ r.openers) : Mode.ofOpener o ≠ .code := by
  intro h
  have hk := kind_ofOpener o
  rw [h] at hk
  exact Rules.kind_ne_code ho hk.symm

theorem cut_ofOpener {o : Opener} (ho : o ∈ r.openers) (s : Text) :
    (Mode.ofOpener o).cut r s = r.cut o s := by
  have hk := Rules.kind_ne_code ho
  unfold Mode.ofOpener Rules.cut
  cases hkind : o.kind with
  | code => exact absurd hkind hk
  | _ => rfl

theorem ending_within (r : Rules) (before inside : Text) (mode : Mode) (c : Char) (rest : Text) :
    (within r mode before inside (c :: rest)).ending =
      match mode with
      | .code => .opener
      | .lineComment => .lineEnd
      | .blockComment => .closer
      | .literal _ quote _ => if c = quote then .closer else .lineEnd := by
  rw [ending, atEnd_within, if_neg (by simp)]
  cases mode <;> simp [within]

theorem move_nil (mode : Mode) :
    Move r before inside mode [] ((within r mode before inside []).finish .code) := by
  have hend : (within r mode before inside []).ending = .textEnd := by
    rw [ending, if_pos (by simp [within])]
  have hcut : mode.cut r ([] ++ []) = ⟨[], (mode.cut r []).closed, []⟩ := by cases mode <;> rfl
  have h : Move r before inside mode ([] ++ []) _ :=
    .ends [] (fun _ => rfl) hcut fun hk => by
      rw [List.nil_append, hend]
      cases mode with
      | code => cases hk
      | lineComment => cases hk
      | blockComment => rfl
      | literal kind quote escaped => rfl
  rwa [List.append_nil, List.append_nil] at h

/-- In a literal a turn does what the next step of its cut does. -/
theorem move_literal {kind : Kind} {quote : Char} {c : Char} {rest : Text} (escaped : Bool) :
    ∃ x, (within r (.literal kind quote escaped) before inside (c :: rest)).step? = some x ∧
      Move r before inside (.literal kind quote escaped) (c :: rest) x := by
  cases escaped with
  | true =>
    rw [step?_escaped]
    have hcut : (Mode.literal kind quote true).cut r (c :: rest) = _ := cutLiteral_escaped c rest
    split
    · rename_i hl
      obtain ⟨s, rfl⟩ := List.head?_eq_some_iff.1 hl.2
      rw [if_pos hl] at hcut
      obtain rfl := hl.1
      exact ⟨_, rfl, .reads ['\r', '\n'] (by simp) (by simp) (by simp) rfl hcut⟩
    · rename_i hl
      rw [if_neg hl] at hcut
      exact ⟨_, rfl, .reads [c] (by simp) (by simp) (by simp) rfl hcut⟩
  | false =>
    have hcut : (Mode.literal kind quote false).cut r (c :: rest) =
        cutLiteral r.escape r.multiline quote false (c :: rest) := rfl
    have hending := ending_within r before inside (.literal kind quote false) c rest
    rw [cutLiteral, if_neg (by simp)] at hcut
    rw [step?_literal]
    split
    · rename_i he
      rw [if_pos he] at hcut
      exact ⟨_, rfl, .reads [c] (by simp) (by simp) (by simp) rfl hcut⟩
    rename_i he
    rw [if_neg he] at hcut
    split
    · rename_i hq
      rw [if_pos hq] at hcut
      refine ⟨_, rfl, .ends [c] (by simp) hcut fun _ => ?_⟩
      rw [List.singleton_append, hending]
      simp [hq, Ending.behind]
    rename_i hq
    rw [if_neg hq] at hcut
    split
    · rename_i hl
      rw [if_pos hl] at hcut
      have h : Move r before inside (.literal kind quote false) ([] ++ c :: rest) _ :=
        .ends [] (by simp) hcut fun _ => by
          rw [List.nil_append, hending]
          simp [hq, Ending.behind]
      rw [List.append_nil] at h
      exact ⟨_, rfl, h⟩
    · rename_i hl
      rw [if_neg hl] at hcut
      exact ⟨_, rfl, .reads [c] (by simp) (by simp) (by simp) rfl hcut⟩

/-- Inside a text a turn never fails. -/
theorem move (r : Rules) (before inside : Text) (mode : Mode) (rest : Text) :
    ∃ x, (within r mode before inside rest).turn? = some x ∧ Move r before inside mode rest x := by
  rcases rest with _ | ⟨c, rest⟩
  · exact ⟨_, by rw [turn?, if_pos (by simp [within])], move_nil mode⟩
  rw [turn?_of_step? atEnd_within]
  cases mode with
  | code =>
    cases ho : r.opener? (c :: rest) with
    | none => exact ⟨_, step?_code_of_none ho, .code ho⟩
    | some o =>
      obtain ⟨-, s, hs⟩ := Rules.mem_of_opener? ho
      rw [← hs] at ho ⊢
      exact ⟨_, step?_code before inside ho, .opens ho⟩
  | lineComment =>
    have hcut : Mode.lineComment.cut r (c :: rest) = cutLine (c :: rest) := rfl
    rw [cutLine] at hcut
    rw [step?_lineComment]
    split
    · rename_i hl
      rw [if_pos hl] at hcut
      have h : Move r before inside .lineComment ([] ++ c :: rest) _ :=
        .ends [] (by simp) hcut (by simp [Mode.kind, Kind.hasCloser])
      rw [List.append_nil] at h
      exact ⟨_, rfl, h⟩
    · rename_i hl
      rw [if_neg hl] at hcut
      exact ⟨_, rfl, .reads [c] (by simp) (by simp) (by simp) rfl hcut⟩
  | blockComment =>
    have hcut : Mode.blockComment.cut r (c :: rest) = cutBlock r.blockEnd (c :: rest) := rfl
    have hending : (within r .blockComment before inside (c :: rest)).ending = .closer :=
      ending_within ..
    rw [cutBlock] at hcut
    rw [step?_blockComment]
    split
    · rename_i hp
      rw [if_pos hp] at hcut
      obtain ⟨s, hs⟩ := List.isPrefixOf_iff_prefix.1 (Bool.and_eq_true_iff.1 hp).2
      rw [← hs, List.drop_left] at hcut ⊢
      rw [← hs] at hending
      exact ⟨_, rfl, .ends _ (by simp) hcut fun _ => hending⟩
    · rename_i hp
      rw [if_neg hp] at hcut
      exact ⟨_, rfl, .reads [c] (by simp) (by simp) (by simp) rfl hcut⟩
  | literal kind quote escaped => exact move_literal escaped

end Scanner
end Gloss
