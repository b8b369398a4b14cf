import Gloss.Scan
import Gloss.Strip.Policy
import Gloss.Text.Lines
/-!
# Buffers

The text under reconstruction in one piece. A buffer knows of each line, by byte
offsets, where it starts and up to where it may not be trimmed (`Mark`). Lines are
trimmed and finished by cutting the text at these offsets, and cuts fail outside the
text and inside a character, so everything that cuts may fail.

`Build` keeps each line by itself and cannot fail; a buffer does what a build does.
-/

namespace Gloss

/-- What a buffer knows of a line. -/
structure Mark where
  start : Nat
  /-- The end of the last literal, or the start of the line. -/
  floor : Nat
  /-- A comment was taken out. -/
  touched : Bool := false
  deriving DecidableEq, Repr

/-- A line that starts at an offset. -/
def Mark.at (offset : Nat) : Mark := { start := offset, floor := offset }

/-- The text written, and its lines. -/
structure Buffer where
  text : Text := []
  /-- The finished lines, the latest first. -/
  done : List Mark := []
  line : Mark := .at 0
  deriving DecidableEq, Repr

namespace Buffer

/-- All lines, in order. -/
def marks (b : Buffer) : List Mark := (b.line :: b.done).reverse

def append (b : Buffer) (s : Text) : Buffer := { b with text := b.text ++ s }

/-- What is written may not be trimmed. -/
def protect (b : Buffer) : Buffer := { b with line := { b.line with floor := Text.width b.text } }

def touch (b : Buffer) : Buffer := { b with line := { b.line with touched := true } }

/-- The line in progress is finished. -/
def newLine (b : Buffer) : Buffer :=
  { b with done := b.line :: b.done, line := .at (Text.width b.text) }

/-- One line of the source, or part of one, goes behind what is written. -/
def pushPiece (literal : Bool) (b : Buffer) (piece : Text) : Buffer :=
  let b := b.append piece
  let b := if literal then b.protect else b
  if Text.isTerminated piece then b.newLine else b

/-- Code or a literal is kept. -/
def push (literal : Bool) (b : Buffer) (s : Text) : Buffer :=
  (Text.lines s).foldl (pushPiece literal) b

/-- A text without the blanks at its end, down to an offset. -/
def trimFrom? (floor : Nat) (s : Text) : Option Text := do
  let (_, loose) ← Text.splitAt? floor s
  let kept := Text.width (Text.dropEndWhile Text.isPad loose)
  let (s, _) ← Text.splitAt? (floor + kept) s
  return s

/-- The buffer without the blanks at its end, down to the floor of its line. -/
def trim? (b : Buffer) : Option Buffer := (trimFrom? b.line.floor b.text).map ({ b with text := · })

/-- A line of a removed comment leaves its terminator, and the next line is touched. -/
def pushBreak (b : Buffer) (piece : Text) : Buffer :=
  (b.append (Text.splitTerminator piece).2).newLine.touch

/-- The line in progress loses a comment with `next` after it, and the blanks in front
of the comment if it ends its line or runs over several. -/
def clear? (b : Buffer) (comment : Text) (next : Option Char) : Option Buffer :=
  if next.all Text.isWhite || comment.contains '\n' then b.touch.trim? else some b.touch

/-- A comment is taken out, with `next` after it. -/
def remove? (policy : Policy) (b : Buffer) (comment : Text) (next : Option Char) : Option Buffer := do
  let b ← b.clear? comment next
  if policy = .preserve ∧ comment.contains '\n' then
    return ((Text.lines comment).filter Text.isTerminated).foldl pushBreak b
  else if Text.isSolid b.text.getLast? && Text.isSolid next then return b.append [' ']
  else return b

/-- The difference of two offsets, if the first is not the smaller one. -/
def minus? (m n : Nat) : Option Nat := if n ≤ m then some (m - n) else none

/-- What a line of a text comes to that stops at an offset. -/
def closeLine? (policy : Policy) (text : Text) (m : Mark) (stop : Nat) : Option Text := do
  let length ← minus? stop m.start
  let (_, rest) ← Text.splitAt? m.start text
  let (raw, _) ← Text.splitAt? length rest
  if m.touched then
    let (body, terminator) := Text.splitTerminator raw
    let guarded ← minus? m.floor m.start
    let body ← trimFrom? (min guarded (Text.width body)) body
    return if policy = .collapse ∧ body = [] then [] else body ++ terminator
  else return raw

/-- What lines come to of which each stops where the next one starts, and the last at
the end of the text. -/
def closeLines? (policy : Policy) (text : Text) : List Mark → Option Text
  | [] => some []
  | m :: ms => do
    let stop := (ms.head?.map (·.start)).getD (Text.width text)
    return (← closeLine? policy text m stop) ++ (← closeLines? policy text ms)

/-- The text of all lines. -/
def close? (policy : Policy) (b : Buffer) : Option Text := closeLines? policy b.text b.marks

/-- The buffer after one more fragment. -/
def feed? (policy : Policy) (b : Buffer) (f : Fragment) : Option Buffer :=
  if f.kind.isComment then b.remove? policy f.text f.next else some (b.push f.kind.isLiteral f.text)

/-- The buffer after fragments. -/
def feeds? (policy : Policy) (fs : List Fragment) : Option Buffer := fs.foldlM (feed? policy) {}

/-- The text at given regions without the comments. -/
def strip? (policy : Policy) (source : Text) (regions : List Region) : Option Text := do
  let b ← feeds? policy (← fragmentsAt? source regions)
  b.close? policy

end Buffer
end Gloss
