import Gloss.Text.Basic
/-!
# Cursor

A cursor stands at a byte offset of a text and looks at the UTF-8 form. A byte
below 128 is its own character; any other is read as the first byte of one.
`skip` may stop inside a character, and there nothing can be read: `advance?`
and `remaining?` fail.
-/

namespace Gloss

/-- A byte offset in a text. -/
structure Cursor where
  source : String
  position : Nat := 0
  deriving DecidableEq, Repr

namespace Cursor

/-- The cursor at the front of a text. -/
def ofText (s : Text) : Cursor := { source := String.ofList s }

def bytes (c : Cursor) : ByteArray := c.source.toByteArray

def atEnd (c : Cursor) : Bool := c.bytes.size ≤ c.position

/-- The character at an offset; NUL past the end and inside a character. -/
def charFrom (c : Cursor) (offset : Nat) : Char :=
  match c.bytes.data[offset]? with
  | none => '\x00'
  | some b =>
    if b < 128 then Char.ofNat b.toNat
    else (c.bytes.utf8DecodeChar? offset).getD '\x00'

/-- The character `ahead` bytes on. Offsets have 64 bits, and past the last one
they start over. -/
def charAt (c : Cursor) (ahead : Nat) : Char := c.charFrom ((c.position + ahead) % Nat.pow 2 64)

def current (c : Cursor) : Char := c.charFrom c.position

/-- The character after one byte. -/
def second (c : Cursor) : Char := c.charFrom (c.position + 1)

/-- The bytes of `token` stand here. -/
def startsWith (c : Cursor) (token : Text) : Bool :=
  let t := (String.ofList token).toByteArray
  c.bytes.extract c.position (c.position + t.size) == t

/-- A line terminator stands here. -/
def atLineEnd (c : Cursor) : Bool :=
  c.current == '\n' || (c.current == '\r' && c.second == '\n')

/-- On by `count` bytes, or to the end. -/
def skip (c : Cursor) (count : Nat) : Cursor :=
  { c with position := c.position + min count (c.bytes.size - c.position) }

/-- On by one character, unless at the end. Fails inside a character. -/
def advance? (c : Cursor) : Option Cursor :=
  match c.bytes.data[c.position]? with
  | none => some c
  | some b =>
    if b < 128 then some { c with position := c.position + 1 }
    else (c.bytes.utf8DecodeChar? c.position).map fun x =>
      { c with position := c.position + x.utf8Size }

/-- Like `advance?`, but past a carriage return and line feed together. -/
def advanceLineAware? (c : Cursor) : Option Cursor :=
  if c.current == '\r' && c.second == '\n' then some { c with position := c.position + 2 }
  else c.advance?

/-- The text from here on. Fails inside a character. -/
def remaining? (c : Cursor) : Option Text :=
  (String.fromUTF8? (c.bytes.extract c.position c.bytes.size)).map String.toList

end Cursor
end Gloss
