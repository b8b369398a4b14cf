import Gloss.Proofs.Driving
/-!
# A cursor against its characters

A cursor moves by bytes: over one that is a character by itself, over as many as
the character there has, or over those of a token it has found. `Call.passed` is
what a call goes over when the text is taken character by character. However the
calls are mixed, none fails, the cursor stands where the characters say, and what
it reads is said of the characters that are left (`calls_read`).
-/

namespace Gloss.Cursor

/-- A call that moves a cursor. -/
inductive Call where
  | advance
  | advanceLineAware
  /-- Over the bytes of a token, where the cursor has just found it. -/
  | skip (token : Text)
  deriving DecidableEq, Repr

/-- The cursor after a call. -/
def call? (c : Cursor) : Call → Option Cursor
  | .advance => c.advance?
  | .advanceLineAware => c.advanceLineAware?
  | .skip token => some (if c.startsWith token then c.skip (Text.width token) else c)

/-- The cursor after a number of calls. -/
def calls? (c : Cursor) (calls : List Call) : Option Cursor := calls.foldlM call? c

namespace Call

/-- The characters a call goes over, with `rest` in front of it. -/
def passed (rest : Text) : Call → Text
  | .advance => rest.take 1
  | .advanceLineAware => if ['\r', '\n'].isPrefixOf rest then ['\r', '\n'] else rest.take 1
  | .skip token => if token.isPrefixOf rest then token else []

/-- The characters left behind a call. -/
def left (rest : Text) (call : Call) : Text := rest.drop (call.passed rest).length

theorem passed_prefix (rest : Text) (call : Call) : call.passed rest <+: rest := by
  cases call with
  | advance => exact List.take_prefix 1 rest
  | advanceLineAware =>
    rw [passed]
    split
    · exact List.isPrefixOf_iff_prefix.1 ‹_›
    · exact List.take_prefix 1 rest
  | skip token =>
    rw [passed]
    split
    · exact List.isPrefixOf_iff_prefix.1 ‹_›
    · exact List.nil_prefix

theorem passed_append_left (rest : Text) (call : Call) : call.passed rest ++ call.left rest = rest := by
  obtain ⟨t, ht⟩ := call.passed_prefix rest
  unfold left
  conv => lhs; rhs; rhs; rw [← ht]
  rw [List.drop_left, ht]

end Call

variable {before rest : Text} {c : Cursor}

/-! ## One call -/

@[simp] theorem remaining?_between : (between before rest).remaining? = some rest := by
  have hextract : (between before rest).bytes.extract (Text.width before)
      (between before rest).bytes.size = rest.utf8Encode := by
    rw [bytes_between]
    exact ByteArray.extract_append_eq_right (Text.size_utf8Encode before).symm ByteArray.size_append
  rw [remaining?, position_between, hextract, String.fromUTF8?, dif_pos ⟨rest, rfl⟩, Option.map_some]
  exact congrArg some String.toList_ofList

theorem advance?_end : (between before []).advance? = some (between before []) := by
  have hsize : (between before []).bytes.data.size = Text.width before := size_bytes_between
  rw [advance?, position_between, Array.getElem?_eq_none (Nat.le_of_eq hsize)]

theorem advanceLineAware?_end : (between before []).advanceLineAware? = some (between before []) := by
  have hcurrent : ((between before []).current == '\r') = false := by
    rw [current_between]
    rfl
  rw [advanceLineAware?, hcurrent, Bool.false_and, if_neg Bool.false_ne_true, advance?_end]

/-- A call goes over what it goes over in the characters, and fails nowhere. -/
theorem call?_between (call : Call) :
    (between before rest).call? call =
      some (between (before ++ call.passed rest) (call.left rest)) := by
  cases call with
  | advance =>
    cases rest with
    | nil => simpa [call?, Call.passed, Call.left] using advance?_end
    | cons x s => exact advance?_between
  | advanceLineAware =>
    unfold call? Call.left Call.passed
    dsimp only
    split
    · -- a carriage return and line feed go together
      obtain ⟨s, rfl⟩ := List.isPrefixOf_iff_prefix.1 ‹_›
      exact advanceLineAware?_return_feed
    · cases rest with
      | nil => simpa using advanceLineAware?_end
      | cons x s =>
        apply advanceLineAware?_between
        rintro ⟨rfl, hs⟩
        cases s <;> simp_all
  | skip token =>
    unfold call? Call.left Call.passed
    dsimp only
    rw [startsWith_between]
    split
    · obtain ⟨s, rfl⟩ := List.isPrefixOf_iff_prefix.1 ‹_›
      rw [skip_between, List.drop_left]
    · rw [List.append_nil]
      rfl

/-! ## Any number of calls -/

/-- Calls lead from between two characters to between two characters. -/
theorem calls?_between (before rest : Text) (calls : List Call) :
    ∃ behind, behind ++ calls.foldl Call.left rest = rest ∧
      (between before rest).calls? calls =
        some (between (before ++ behind) (calls.foldl Call.left rest)) := by
  induction calls generalizing before rest with
  | nil => exact ⟨[], rfl, by rw [List.append_nil]; rfl⟩
  | cons call calls ih =>
    obtain ⟨behind, hbehind, hcalls⟩ := ih (before ++ call.passed rest) (call.left rest)
    refine ⟨call.passed rest ++ behind, ?_, ?_⟩
    · rw [List.foldl_cons, List.append_assoc, hbehind, call.passed_append_left]
    · rw [List.foldl_cons, ← List.append_assoc, ← hcalls, calls?, List.foldlM_cons, call?_between]
      rfl

/-! ## Main result -/

/-- The cursor stands in the text where `rest` is left, and what it reads is what
the characters of `rest` are. -/
structure Reads (source rest : Text) (c : Cursor) : Prop where
  boundary : source.Boundary c.position
  le : c.position ≤ Text.width source
  split : ∃ before, Text.splitAt? c.position source = some (before, rest)
  remaining : c.remaining? = some rest
  atEnd : c.atEnd = true ↔ rest = []
  /-- NUL stands for no character, and for itself. -/
  current : c.current = rest.head?.getD '\x00'
  startsWith : ∀ token, c.startsWith token = true ↔ token <+: rest
  lineEnd : c.atLineEnd = Text.atLineEnd rest

theorem reads_between (before rest : Text) : Reads (before ++ rest) rest (between before rest) where
  boundary := ⟨before, rest, rfl, rfl⟩
  le := by
    rw [position_between, Text.width_append]
    omega
  split := ⟨before, Text.splitAt?_width_append before rest⟩
  remaining := remaining?_between
  atEnd := by rw [atEnd_between, List.isEmpty_iff]
  current := current_between
  startsWith token := by rw [startsWith_between, List.isPrefixOf_iff_prefix]
  lineEnd := atLineEnd_between

/-- However a cursor is moved over a text, it reads what is left when the same calls
are made on the characters of the text. From there every call leads on by the
characters it goes over: for `advance` the next one, if there is one. -/
theorem calls_read (s : Text) (calls : List Call) :
    ∃ c, (ofText s).calls? calls = some c ∧ Reads s (calls.foldl Call.left s) c ∧
      ∀ call : Call, ∃ d, c.call? call = some d ∧ c.position ≤ d.position ∧
        d.position = c.position + Text.width (call.passed (calls.foldl Call.left s)) := by
  obtain ⟨behind, hbehind, hcalls⟩ := calls?_between [] s calls
  refine ⟨_, hcalls, ?_, ?_⟩
  · have h := reads_between behind (calls.foldl Call.left s)
    rwa [hbehind] at h
  · intro call
    have hposition := Text.width_append ([] ++ behind) (call.passed (calls.foldl Call.left s))
    exact ⟨_, call?_between call, by simp only [position_between]; omega, hposition⟩

end Gloss.Cursor
