import Gloss.Kind
import Gloss.Text.Basic
/-!
# Rules

The delimiters of a language. `Delimiters` is what anyone may write down;
`Rules` are delimiters in which `fault?` finds nothing: no token is empty or
holds white space, no escape is a quote, something can be opened, and no two
constructs open alike. A scan only ever sees `Rules`, so removing a comment and
putting a space or a line feed in its place never makes a new opener.
-/

namespace Gloss

/-- The tokens that open, close and escape constructs, each of them optional. -/
structure Delimiters where
  lineComment : Option Text := none
  /-- Start and end token. -/
  blockComment : Option (Text × Text) := none
  stringQuote : Option Char := none
  charQuote : Option Char := none
  /-- Takes the next character of a literal as it stands. -/
  escape : Option Char := none
  /-- A literal may run past the end of its line. -/
  multiline : Bool := false
  deriving DecidableEq, Repr

/-- A token that leaves code, and what it opens. -/
structure Opener where
  kind : Kind
  token : Text
  deriving DecidableEq, Repr

/-! ## Openers -/

/-- Puts an opener in front of those that are no longer than it. -/
def Opener.insert (o : Opener) : List Opener → List Opener
  | [] => [o]
  | p :: ps => if p.token.length ≤ o.token.length then o :: p :: ps else p :: o.insert ps

theorem Opener.insert_perm (o : Opener) (ps : List Opener) : (o.insert ps).Perm (o :: ps) := by
  induction ps with
  | nil => exact .refl _
  | cons p ps ih =>
    rw [Opener.insert]
    split
    · exact .refl _
    · exact (ih.cons p).trans (.swap o p ps)

namespace Delimiters

/-- The openers in the order block, line, string, char. -/
def starts (d : Delimiters) : List Opener :=
  (d.blockComment.map fun (start, _) => ⟨.blockComment, start⟩).toList ++
  (d.lineComment.map fun token => ⟨.lineComment, token⟩).toList ++
  (d.stringQuote.map fun q => ⟨.stringLiteral, [q]⟩).toList ++
  (d.charQuote.map fun q => ⟨.charLiteral, [q]⟩).toList

/-- The openers, longest first; openers of one length keep their order. -/
def openers (d : Delimiters) : List Opener := d.starts.foldr Opener.insert []

/-- The longest opener at the front of the text. -/
def opener? (d : Delimiters) (s : Text) : Option Opener :=
  d.openers.find? fun o => o.token.isPrefixOf s

/-- The token that ends a block comment. -/
def blockEnd (d : Delimiters) : Text := (d.blockComment.map (·.2)).getD []

theorem openers_perm (d : Delimiters) : d.openers.Perm d.starts := by
  unfold openers
  induction d.starts with
  | nil => exact .refl _
  | cons o os ih => exact (o.insert_perm _).trans (ih.cons o)

theorem mem_openers {d : Delimiters} {o : Opener} : o ∈ d.openers ↔ o ∈ d.starts :=
  d.openers_perm.mem_iff

end Delimiters

/-! ## What can be wrong -/

/-- The part a delimiter plays. -/
inductive Role where
  | lineStart
  | blockStart
  | blockEnd
  | stringQuote
  | charQuote
  | escape
  deriving DecidableEq, Repr

def Role.name : Role → String
  | .lineStart => "line comment start"
  | .blockStart => "block comment start"
  | .blockEnd => "block comment end"
  | .stringQuote => "string quote"
  | .charQuote => "char quote"
  | .escape => "escape character"

/-- Why delimiters are no rules. -/
inductive RulesError where
  | emptyToken (which : Role)
  | whitespaceInToken (which : Role)
  /-- Two constructs start with one token. -/
  | conflictingOpeners (first second : Kind) (token : Text)
  | escapeIsQuote (c : Char)
  | noOpeners
  deriving DecidableEq, Repr

def RulesError.message : RulesError → String
  | .emptyToken which => s!"{which.name} must not be empty"
  | .whitespaceInToken which => s!"{which.name} must not contain whitespace"
  | .conflictingOpeners first second token =>
    s!"{first.title} and {second.title} use the same start token `{String.ofList token}`"
  | .escapeIsQuote c => s!"escape character `{c}` is also used as a quote"
  | .noOpeners => "rule set has no comment or literal delimiters"

/-- The fault of a comment token: emptiness is found before white space. -/
def tokenFault? (which : Role) (token : Text) : Option RulesError :=
  if token = [] then some (.emptyToken which)
  else if token.any Text.isWhite then some (.whitespaceInToken which)
  else none

/-- The fault of a quote or an escape. -/
def charFault? (which : Role) (c : Char) : Option RulesError :=
  if Text.isWhite c then some (.whitespaceInToken which) else none

/-- The first opener whose token opens a later construct too. -/
def conflict? : List Opener → Option RulesError
  | [] => none
  | a :: rest =>
    match rest.find? (·.token = a.token) with
    | some b => some (.conflictingOpeners a.kind b.kind a.token)
    | none => conflict? rest

namespace Delimiters

/-- The first fault: tokens, then quotes, then the escape, then openers. -/
def fault? (d : Delimiters) : Option RulesError :=
  d.lineComment.bind (tokenFault? .lineStart) <|>
  d.blockComment.bind (fun (start, _) => tokenFault? .blockStart start) <|>
  d.blockComment.bind (fun (_, stop) => tokenFault? .blockEnd stop) <|>
  d.stringQuote.bind (charFault? .stringQuote) <|>
  d.charQuote.bind (charFault? .charQuote) <|>
  d.escape.bind (charFault? .escape) <|>
  d.escape.bind (fun e =>
    if d.stringQuote = some e ∨ d.charQuote = some e then some (.escapeIsQuote e) else none) <|>
  (if d.starts = [] then some .noOpeners else none) <|>
  conflict? d.openers

end Delimiters

/-! ## Rules -/

/-- Delimiters without a fault. -/
structure Rules extends Delimiters where
  sound : toDelimiters.fault? = none
  deriving DecidableEq

namespace Delimiters

/-- The rules these delimiters make. -/
def check (d : Delimiters) : Except RulesError Rules :=
  match h : d.fault? with
  | none => .ok ⟨d, h⟩
  | some e => .error e

end Delimiters

namespace Rules

/-- The delimiters most languages share: slashes, both quotes, a backslash. -/
def common : Rules where
  lineComment := some ['/', '/']
  blockComment := some (['/', '*'], ['*', '/'])
  stringQuote := some '"'
  charQuote := some '\''
  escape := some '\\'
  sound := by decide

/-- Whether literals may run past the end of a line is no ground for a fault. -/
def withMultiline (r : Rules) (allow : Bool) : Rules :=
  { r with multiline := allow, sound := r.sound }

/-- Rules never open a construct with nothing. -/
theorem token_ne_nil {r : Rules} {o : Opener} (h : o ∈ r.openers) : o.token ≠ [] := by
  have hs := r.sound
  have hm := Delimiters.mem_openers.1 h
  simp only [Delimiters.fault?, Option.orElse_eq_orElse, Option.orElse_eq_or, Option.or_eq_none_iff] at hs
  simp only [Delimiters.starts, List.mem_append, Option.mem_toList, Option.map_eq_some_iff] at hm
  obtain ⟨hl, hb, -⟩ := hs
  rcases hm with ((⟨p, hp, rfl⟩ | ⟨t, ht, rfl⟩) | ⟨q, -, rfl⟩) | ⟨q, -, rfl⟩
  · intro h0
    rw [hp] at hb
    simp_all [tokenFault?]
  · intro h0
    rw [ht] at hl
    simp_all [tokenFault?]
  · simp
  · simp

theorem mem_of_opener? {r : Rules} {s : Text} {o : Opener} (h : r.opener? s = some o) :
    o ∈ r.openers ∧ o.token <+: s :=
  ⟨List.mem_of_find?_eq_some h, List.isPrefixOf_iff_prefix.1 (by simpa using List.find?_some h)⟩

end Rules
end Gloss
