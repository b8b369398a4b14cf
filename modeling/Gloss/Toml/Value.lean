/-!
# TOML values

The values of a TOML document, and how keys and headers put them into tables.
A table remembers how it came about, for that decides who may add to it: a key
may only be set once, a header may not name a table twice, and dots in a key
may not reach into a table that has a header or braces of its own.
-/

namespace Gloss.Toml

/-- How a table came about. -/
inductive Origin where
  /-- Named by a header. -/
  | header
  /-- Above a table that is named by a header. -/
  | implied
  /-- By the dots in a key. -/
  | dotted
  /-- Written in braces. -/
  | braces
  /-- By the dots in a key in braces. -/
  | dottedInBraces
  deriving DecidableEq, Repr

namespace Origin

def isDotted : Origin → Bool
  | .dotted | .dottedInBraces => true
  | _ => false

def isInline : Origin → Bool
  | .braces | .dottedInBraces => true
  | _ => false

end Origin

inductive Value where
  | string (s : String)
  | integer (n : Int)
  | boolean (b : Bool)
  /-- A float, a date or a time. -/
  | other
  | array (xs : List Value)
  /-- What headers in double brackets add up to. -/
  | tables (ts : List (List (String × Value)))
  | table (origin : Origin) (entries : List (String × Value))

/-- Keys with their values, in the order in which they were set. -/
abbrev Entries := List (String × Value)

namespace Entries

/-- The entries with the value of a key exchanged. -/
def replace (key : String) (v : Value) (es : Entries) : Entries :=
  es.map fun e => if e.1 == key then (key, v) else e

/-- The entries with a new key at the end. -/
def add? (key : String) (v : Value) (es : Entries) : Option Entries :=
  if es.any (·.1 == key) then none else some (es ++ [(key, v)])

/-- Sets a key, given by its parts. The tables on the way are made with
`origin`; one that is there already must have been made so too, though all but
the last may also be implied by a header or end an array of tables. -/
def set? (origin : Origin) (v : Value) : List String → Entries → Option Entries
  | [], _ => none
  | [key], es => es.add? key v
  | part :: rest, es =>
    match es.lookup part with
    | none => do return es ++ [(part, .table origin (← set? origin v rest []))]
    | some (.table o inner) => do
      guard (o.isDotted || (o == .implied && 1 < rest.length))
      return es.replace part (.table o (← set? origin v rest inner))
    | some (.tables ts) => do
      guard (1 < rest.length)
      let inner ← set? origin v rest (← ts.getLast?)
      return es.replace part (.tables (ts.dropLast ++ [inner]))
    | some _ => none

/-- Changes the table that a header's parts lead to, and makes those on the way
that are missing. An array of tables leads to its last table. -/
def at? (change : Entries → Option Entries) : List String → Entries → Option Entries
  | [], es => change es
  | part :: rest, es =>
    match es.lookup part with
    | none => do return es ++ [(part, .table .implied (← at? change rest []))]
    | some (.table o inner) => do
      guard !o.isInline
      return es.replace part (.table o (← at? change rest inner))
    | some (.tables ts) => do
      let inner ← at? change rest (← ts.getLast?)
      return es.replace part (.tables (ts.dropLast ++ [inner]))
    | some _ => none

/-- Opens the table of a header and lets `fill` set its keys. A table implied so
far moves to the end. -/
def open? (fill : Entries → Option Entries) (key : String) (es : Entries) : Option Entries :=
  match es.lookup key with
  | none => do return es ++ [(key, .table .header (← fill []))]
  | some (.table .implied inner) => do
    return es.filter (·.1 != key) ++ [(key, .table .header (← fill inner))]
  | some _ => none

/-- Puts one more table into the array of a header in double brackets. -/
def append? (fill : Entries → Option Entries) (key : String) (es : Entries) : Option Entries :=
  match es.lookup key with
  | none => do return es ++ [(key, .tables [← fill []])]
  | some (.tables ts) => do return es.replace key (.tables (ts ++ [← fill []]))
  | some _ => none

end Entries
end Gloss.Toml
