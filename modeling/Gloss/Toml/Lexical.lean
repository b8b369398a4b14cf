import Gloss.Toml.Reader
/-!
# Blanks, strings and keys

The small parts of a TOML document. Outside strings and comments there is no
character but those of the grammar; inside them a tab is the only control.
-/

namespace Gloss.Toml

open Reader

/-- What a value may nest in, and how many parts a key may have. -/
def maxDepth : Nat := 79

/-! ## Blanks -/

/-- May stand in a comment or a string. -/
def isPlain (c : Char) : Bool := c == '\t' || (0x20 ≤ c.toNat && c.toNat != 0x7F)

/-- Spaces and tabs. -/
def blanks : Reader Unit := do let _ ← run Text.isPad

def newline : Reader Unit := exact "\n" <|> exact "\r\n"

def comment : Reader Unit := do
  exact "#"
  let _ ← run isPlain

/-- Blanks, line breaks and comments. -/
def gap : Reader Unit := do
  let _ ← many ((do let _ ← run1 Text.isPad) <|> newline <|> comment)

/-- What may follow on a line. -/
def lineRest : Reader Unit := do
  blanks
  let _ ← optional comment
  newline <|> atEnd

/-! ## Digits -/

def isDigitOf (base : Nat) (c : Char) : Bool :=
  c.isDigit && c.toNat - '0'.toNat < base ||
    base == 16 && ('a' ≤ c && c ≤ 'f' || 'A' ≤ c && c ≤ 'F')

def digitValue (c : Char) : Nat :=
  if c.isDigit then c.toNat - '0'.toNat
  else if 'a' ≤ c then c.toNat - 'a'.toNat + 10
  else c.toNat - 'A'.toNat + 10

/-- The number that digits stand for. -/
def ofDigits (base : Nat) (digits : Text) : Nat :=
  digits.foldl (fun n c => n * base + digitValue c) 0

/-- Exactly `count` digits. -/
def digitsOf (base : Nat) : Nat → Reader Text
  | 0 => pure []
  | count + 1 => do
    let c ← char (isDigitOf base)
    return c :: (← digitsOf base count)

/-! ## Strings -/

/-- A code point of so many hexadecimal digits. -/
def scalar (count : Nat) : Reader Char := do
  let n := ofDigits 16 (← digitsOf 16 count)
  guard (n < 0xD800 || (0xDFFF < n && n < 0x110000))
  return Char.ofNat n

def escape : Reader Char := do
  exact "\\"
  match ← char fun _ => true with
  | 'b' => return '\x08'
  | 't' => return '\t'
  | 'n' => return '\n'
  | 'f' => return '\x0c'
  | 'r' => return '\r'
  | '"' => return '"'
  | '\\' => return '\\'
  | 'u' => scalar 4
  | 'U' => scalar 8
  | _ => failure

def basicChar : Reader Char := char fun c => isPlain c && c != '"' && c != '\\'

def literalChar : Reader Char := char fun c => isPlain c && c != '\''

def basicString : Reader Text := do
  exact "\""
  let s ← many (basicChar <|> escape)
  exact "\""
  return s

def literalString : Reader Text := do
  exact "'"
  let s ← many literalChar
  exact "'"
  return s

/-- A backslash at the end of a line takes the blanks and line breaks that
follow. -/
def continuation : Reader Text := do
  exact "\\"
  blanks
  newline
  let _ ← many ((do let _ ← run1 Text.isPad) <|> newline)
  return []

/-- A line break in a string of many lines is a line feed. -/
def lineFeed : Reader Text := do
  newline
  return ['\n']

/-- One or two quotes inside a string of many lines. -/
def innerQuotes (quote : Char) : Reader Text := do
  let quotes ← run1 (· == quote)
  guard (quotes.length < 3)
  return quotes

/-- Three quotes, with up to two more in front that belong to the string. -/
def closingQuotes (quote : Char) : Reader Text := do
  let quotes ← run (· == quote)
  guard (3 ≤ quotes.length && quotes.length ≤ 5)
  return quotes.drop 3

/-- A string of many lines. A line break right after the opening quotes is left
out. -/
def longString (quote : Char) (piece : Reader Text) : Reader Text := do
  exact (String.ofList [quote, quote, quote])
  let _ ← optional newline
  let pieces ← many (piece <|> innerQuotes quote)
  return pieces.flatten ++ (← closingQuotes quote)

def longBasicString : Reader Text :=
  longString '"' ((return [← basicChar]) <|> continuation <|> (return [← escape]) <|> lineFeed)

def longLiteralString : Reader Text :=
  longString '\'' ((return [← literalChar]) <|> lineFeed)

def string : Reader Text :=
  longBasicString <|> longLiteralString <|> basicString <|> literalString

/-! ## Keys -/

def isBare (c : Char) : Bool := c.isAlphanum || c == '_' || c == '-'

/-- One part of a key. -/
def keyPart : Reader String := do
  blanks
  let part ← basicString <|> literalString <|> run1 isBare
  blanks
  return String.ofList part

/-- The parts of a key. -/
def key : Reader (List String) := do
  let parts ← sepBy1 keyPart (exact ".")
  guard (parts.length ≤ maxDepth)
  return parts

end Gloss.Toml
