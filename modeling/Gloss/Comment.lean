import Gloss.Scan
import Gloss.Text.Lines
/-!
# Comments

The comments of a text, each with the line it starts on. The body of a comment
is its text without the tokens around it.
-/

namespace Gloss

structure Comment where
  kind : Kind
  span : Span
  /-- Where it starts, counted from 1. -/
  line : Nat
  text : Text
  terminated : Bool
  deriving DecidableEq, Repr

namespace Comment

/-- The text without its start token and, if the comment is closed, without its
end token. -/
def body (c : Comment) (r : Rules) : Text :=
  match c.kind with
  | .lineComment => (r.lineComment.bind (Text.dropPrefix? · c.text)).getD c.text
  | .blockComment =>
    match r.blockComment with
    | none => c.text
    | some (start, stop) =>
      let inner := (Text.dropPrefix? start c.text).getD c.text
      if c.terminated then (Text.dropSuffix? stop inner).getD inner else inner
  | _ => c.text

/-- The body in one line: the stars and blanks in front of its lines go, and so
do empty lines. -/
def summary (c : Comment) (r : Rules) : Text :=
  let words := (Text.lines (c.body r)).map fun line =>
    Text.trim Text.isWhite ((Text.trim Text.isWhite line).dropWhile (· == '*'))
  List.intercalate [' '] (words.filter (· ≠ []))

end Comment

/-- The comments among fragments of which the first starts on `line`. -/
def commentsFrom (r : Rules) (line : Nat) : List Fragment → List Comment
  | [] => []
  | f :: fs =>
    let rest := commentsFrom r (line + f.text.count '\n') fs
    if f.kind.isComment then ⟨f.kind, f.span, line, f.text, f.isTerminated r⟩ :: rest else rest

/-- The comments among the fragments of a text, in order. -/
def comments (r : Rules) (fs : List Fragment) : List Comment := commentsFrom r 1 fs

/-- The comments of a text. -/
def Rules.comments (r : Rules) (source : Text) : List Comment := Gloss.comments r (r.fragments source)

end Gloss
