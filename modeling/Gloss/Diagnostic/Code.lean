/-!
# Codes

What a diagnostic is about: a letter for its family and a number, written with
at least four digits.
-/

namespace Gloss

structure Code where
  family : String
  number : Nat
  deriving DecidableEq, Repr

namespace Code

/-- An input cannot be read. -/
def unreadableInput : Code := ⟨"E", 1⟩

/-- A block comment is never closed. -/
def unclosedBlockComment : Code := ⟨"W", 101⟩

/-- A string literal is never closed. -/
def unclosedString : Code := ⟨"W", 102⟩

/-- A character literal is never closed. -/
def unclosedChar : Code := ⟨"W", 103⟩

def text (c : Code) : String :=
  let digits := toString c.number
  c.family ++ "".pushn '0' (4 - digits.length) ++ digits

/-- The code in a log. -/
def describe (c : Code) : String := s!"DiagnosticCode({c.text})"

/-- Codes are ordered by family, then by number. -/
def le (a b : Code) : Bool :=
  a.family < b.family || (a.family == b.family && a.number ≤ b.number)

/-- Codes in order; equal ones keep their order. -/
def sort (cs : List Code) : List Code := cs.mergeSort le

end Code
end Gloss
