import Gloss.Lexeme
import Gloss.Span
/-!
# Scanning

`scan` gives the regions of a text: spans with their kinds, in order, without
gaps. What is done with regions (stripping, listing, warning) is done with
`Fragment`s: regions with their text and the character that follows it.
Fragments come from a scan (`Rules.fragments`) or are cut at any given regions
(`fragmentsAt?`), which need not be those of a scan.
-/

namespace Gloss

/-- A region, the text under it and the character after it. -/
structure Fragment where
  kind : Kind
  span : Span
  text : Text
  next : Option Char
  deriving DecidableEq, Repr

namespace Fragment

def region (f : Fragment) : Region := ⟨f.kind, f.span⟩

/-- The fragment of a text at a region, if the region lies in it. -/
def ofRegion? (source : Text) (r : Region) : Option Fragment := do
  let (_, rest) ← Text.splitAt? r.span.start source
  let (text, after) ← Text.splitAt? r.span.length rest
  return ⟨r.kind, r.span, text, after.head?⟩

end Fragment

/-- The fragments of a text at given regions. -/
def fragmentsAt? (source : Text) (regions : List Region) : Option (List Fragment) :=
  regions.mapM (Fragment.ofRegion? source)

/-- Lexemes laid out from an offset on. -/
def layOut (offset : Nat) : List Lexeme → List Fragment
  | [] => []
  | l :: ls =>
    let next := ls.head?.bind (·.text.head?)
    ⟨l.kind, .ofLength offset (Text.width l.text), l.text, next⟩ ::
      layOut (offset + Text.width l.text) ls

namespace Rules

/-- The fragments of a text. -/
def fragments (r : Rules) (source : Text) : List Fragment := layOut 0 (r.lexemes source)

/-- The regions of a text. -/
def scan (r : Rules) (source : Text) : List Region := (r.fragments source).map (·.region)

/-! ## Closed or not -/

/-- Past the opening quote, the first quote that is not escaped ends the text. -/
def closesLiteral (escape : Option Char) (quote : Char) (escaped : Bool) : Text → Bool
  | [] => false
  | c :: s =>
    if escaped then closesLiteral escape quote false s
    else if escape = some c then closesLiteral escape quote true s
    else if c = quote then s.isEmpty
    else closesLiteral escape quote false s

/-- The text is a literal from its quote to its quote. -/
def isLiteral (r : Rules) (quote : Char) : Text → Bool
  | [] => false
  | c :: s => c == quote && closesLiteral r.escape quote false s

/-- A construct of this kind and text met its own end. Code and line comments
always do. -/
def terminates (r : Rules) (kind : Kind) (text : Text) : Bool :=
  match kind with
  | .code | .lineComment => true
  | .blockComment =>
    match r.blockComment with
    | none => false
    | some (start, stop) =>
      Text.width start + Text.width stop ≤ Text.width text && stop.isSuffixOf text
  | .stringLiteral => r.stringQuote.any (r.isLiteral · text)
  | .charLiteral => r.charQuote.any (r.isLiteral · text)

end Rules

/-- The construct met its own end. -/
def Fragment.isTerminated (f : Fragment) (r : Rules) : Bool := r.terminates f.kind f.text

end Gloss
