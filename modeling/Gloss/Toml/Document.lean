import Gloss.Toml.Number
/-!
# Documents

A TOML document: keys with their values, then headers with the keys below them.
`parse?` gives the keys of the whole document, or nothing if it is malformed or
sets something twice.
-/

namespace Gloss.Toml

open Reader

/-! ## Values -/

/-- Values in brackets. Line breaks and comments may stand around each. -/
def array (value : Reader Value) : Reader Value := do
  exact "["
  let xs ← optional (do
    let xs ← sepBy1 (do gap; let v ← value; gap; return v) (exact ",")
    let _ ← optional (exact ",")
    return xs)
  gap
  exact "]"
  return .array (xs.getD [])

/-- Keys with their values in braces, on one line. -/
def inlineTable (value : Reader Value) : Reader Value := do
  exact "\x7b"
  let pairs ← optional (sepBy1 (do
    let parts ← key
    exact "="
    blanks
    let v ← value
    blanks
    return (parts, v)) (exact ","))
  blanks
  exact "\x7d"
  let entries ← (pairs.getD []).foldlM
    (fun es (parts, v) => liftM (Entries.set? .dottedInBraces v parts es)) []
  return .table .braces entries

def boolean : Reader Value :=
  (do exact "true"; return .boolean true) <|> (do exact "false"; return .boolean false)

/-- A value without values in it. -/
def simpleValue : Reader Value :=
  (do return .string (String.ofList (← string))) <|> boolean <|> number

/-- A value that nests no deeper than a limit. -/
def value : Nat → Reader Value
  | 0 => simpleValue
  | depth + 1 => array (value depth) <|> inlineTable (value depth) <|> simpleValue

/-! ## Sections -/

/-- A key with its value, on a line of its own. -/
def pair : Reader (List String × Value) := do
  let parts ← key
  exact "="
  blanks
  let v ← value maxDepth
  lineRest
  gap
  return (parts, v)

/-- A header, and whether it is in double brackets. -/
def header : Reader (List String × Bool) :=
  (do
    exact "[["
    let parts ← key
    exact "]]"
    lineRest
    gap
    return (parts, true)) <|> do
  exact "["
  let parts ← key
  exact "]"
  lineRest
  gap
  return (parts, false)

/-- The keys of one section. -/
def fill (pairs : List (List String × Value)) (es : Entries) : Option Entries :=
  pairs.foldlM (fun es (parts, v) => es.set? .dotted v parts) es

/-- The document with one more section. -/
def addSection (es : Entries) (parts : List String) (isElement : Bool)
    (pairs : List (List String × Value)) : Option Entries := do
  let name ← parts.getLast?
  let put := if isElement then Entries.append? else Entries.open?
  Entries.at? (put (fill pairs) name) parts.dropLast es

def document : Reader Entries := do
  let _ ← optional (exact "\ufeff")
  gap
  let top ← liftM (fill (← many pair) [])
  let sections ← many (do return (← header, ← many pair))
  atEnd
  sections.foldlM (fun es ((parts, isElement), pairs) => liftM (addSection es parts isElement pairs))
    top

/-- The keys and values of a document. -/
def parse? (s : Text) : Option Entries := (document s).map (·.1)

end Gloss.Toml
