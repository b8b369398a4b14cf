import Gloss.Text.Quoted
/-!
# JSON documents

The documents that commands print: one member or element a line, two spaces for
each level, and escapes only where there must be one.
-/

namespace Gloss.Command

inductive Json where
  | string (s : String)
  | number (n : Nat)
  | boolean (b : Bool)
  | array (xs : List Json)
  | object (members : List (String × Json))

namespace Json

/-- A character in a JSON string. -/
def escaped (c : Char) : String :=
  match c with
  | '"' => "\\\""
  | '\\' => "\\\\"
  | '\x08' => "\\b"
  | '\x0c' => "\\f"
  | '\n' => "\\n"
  | '\r' => "\\r"
  | '\t' => "\\t"
  | c =>
    if c.toNat < 0x20 then
      let digits := Text.hex c.toNat
      "\\u" ++ "".pushn '0' (4 - digits.length) ++ digits
    else c.toString

def quote (s : String) : String := "\"" ++ String.join (s.toList.map escaped) ++ "\""

/-- Items between brackets, each on a line of its own, `depth` levels deep. -/
def block (depth : Nat) (opening closing : String) (items : List String) : String :=
  if items = [] then opening ++ closing
  else
    let inner := "".pushn ' ' (2 * (depth + 1))
    opening ++ "\n" ++ ",\n".intercalate (items.map (inner ++ ·)) ++ "\n" ++
      "".pushn ' ' (2 * depth) ++ closing

/-- The document as text, `depth` levels deep. -/
def render (depth : Nat) : Json → String
  | .string s => quote s
  | .number n => toString n
  | .boolean b => if b then "true" else "false"
  | .array xs => block depth "[" "]" (xs.attach.map fun x => render (depth + 1) x.1)
  | .object members =>
    block depth "\x7b" "\x7d"
      (members.attach.map fun m => quote m.1.1 ++ ": " ++ render (depth + 1) m.1.2)
termination_by j => sizeOf j
decreasing_by
  · have := List.sizeOf_lt_of_mem x.2; simp; omega
  · obtain ⟨⟨k, v⟩, h⟩ := m
    have := List.sizeOf_lt_of_mem h
    simp_all
    omega

end Json
end Gloss.Command
