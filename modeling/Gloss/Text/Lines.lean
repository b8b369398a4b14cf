import Gloss.Text.Basic
/-!
# Lines

A line ends with a line feed, alone or after a carriage return. A carriage
return by itself is an ordinary character.
-/

namespace Gloss.Text

/-- A line terminator stands at the front. -/
def atLineEnd : Text → Bool
  | '\n' :: _ => true
  | '\r' :: '\n' :: _ => true
  | _ => false

/-- The lines of a text, each with its terminator. The last may have none, and
no line is empty. -/
def lines : Text → List Text
  | [] => []
  | c :: s =>
    if c = '\n' then [c] :: lines s
    else match lines s with
      | [] => [[c]]
      | l :: ls => (c :: l) :: ls

/-- The lines of a text joined are the text. -/
theorem flatten_lines (s : Text) : (lines s).flatten = s := by
  induction s with
  | nil => rfl
  | cons c s ih =>
    rw [lines]
    split
    · simp [ih]
    · split <;> rename_i h <;> rw [h] at ih <;> simp_all

/-- The line ends with a line feed. -/
def isTerminated (line : Text) : Bool := line.getLast? == some '\n'

/-- A line cut before its terminator. -/
def splitTerminator (line : Text) : Text × Text :=
  match line.reverse with
  | '\n' :: '\r' :: body => (body.reverse, ['\r', '\n'])
  | '\n' :: body => (body.reverse, ['\n'])
  | _ => (line, [])

/-- A line without its terminator. -/
def lineBody (line : Text) : Text := (splitTerminator line).1

theorem splitTerminator_append (line : Text) :
    (splitTerminator line).1 ++ (splitTerminator line).2 = line := by
  have h := List.reverse_reverse line
  unfold splitTerminator
  split <;> rename_i hr
  · rw [hr] at h; simp [← h]
  · rw [hr] at h; simp [← h]
  · simp

end Gloss.Text
