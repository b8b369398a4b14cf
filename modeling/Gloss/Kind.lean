/-!
# Kinds

What a stretch of source text is. The kinds are flat: a delimiter inside a
comment or a literal is content.
-/

namespace Gloss

/-- What a stretch of source text is. -/
inductive Kind where
  /-- Anything outside comments and literals, white space included. -/
  | code
  /-- From its start token up to the end of the line. -/
  | lineComment
  /-- From its start token through its end token. -/
  | blockComment
  /-- From quote to quote. -/
  | stringLiteral
  /-- From quote to quote, with the other quote. -/
  | charLiteral
  deriving DecidableEq, Repr

namespace Kind

def all : List Kind := [.code, .lineComment, .blockComment, .stringLiteral, .charLiteral]

def isComment : Kind → Bool
  | .lineComment | .blockComment => true
  | _ => false

def isLiteral : Kind → Bool
  | .stringLiteral | .charLiteral => true
  | _ => false

/-- The name in reports. -/
def name : Kind → String
  | .code => "code"
  | .lineComment => "line_comment"
  | .blockComment => "block_comment"
  | .stringLiteral => "string_literal"
  | .charLiteral => "char_literal"

/-- The name in messages. -/
def title : Kind → String
  | .code => "code"
  | .lineComment => "line comment"
  | .blockComment => "block comment"
  | .stringLiteral => "string literal"
  | .charLiteral => "char literal"

def ofName? (s : String) : Option Kind := all.find? (·.name == s)

theorem ofName?_name (k : Kind) : ofName? k.name = some k := by cases k <;> decide

end Kind
end Gloss
