import Gloss.Text.Basic
/-!
# Readers

A reader takes something from the front of a text and leaves the rest, or
refuses. `p <|> q` tries `q` where `p` stood.
-/

namespace Gloss.Toml

/-- Reads an `α` from the front of a text. -/
abbrev Reader := StateT Text Option

namespace Reader

/-- The next character, if it is in `p`. -/
def char (p : Char → Bool) : Reader Char
  | [] => none
  | c :: s => if p c then some (c, s) else none

/-- Exactly this text. -/
def exact (t : String) : Reader Unit := fun s =>
  (Text.dropPrefix? t.toList s).map fun rest => ((), rest)

/-- The longest run of characters in `p`. -/
def run (p : Char → Bool) : Reader Text := fun s => some (s.takeWhile p, s.dropWhile p)

/-- A run of one character at least. -/
def run1 (p : Char → Bool) : Reader Text := do
  let c ← char p
  return c :: (← run p)

/-- The end of the text. -/
def atEnd : Reader Unit
  | [] => some ((), [])
  | _ => none

/-- As many `p` as there are. One that reads nothing is the last. -/
def many {α : Type} (p : Reader α) : Reader (List α) := fun s => some (go s)
where
  go (s : Text) : List α × Text :=
    match p s with
    | none => ([], s)
    | some (a, rest) =>
      if rest.length < s.length then
        let (as, rest) := go rest
        (a :: as, rest)
      else ([a], rest)
  termination_by s.length

/-- One or more `p` with `sep` between them. -/
def sepBy1 {α : Type} (p : Reader α) (sep : Reader Unit) : Reader (List α) := do
  let a ← p
  return a :: (← many (do sep; p))

end Reader
end Gloss.Toml
