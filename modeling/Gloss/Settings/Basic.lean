import Gloss.Language
import Gloss.Problem
/-!
# Settings

Settings add languages to the known ones and say what holds where the command
line says nothing. `Settings.check` finds what is wrong with them before any
input is touched.
-/

namespace Gloss

/-- A language of the settings. -/
structure CustomLanguage where
  extensions : List String := []
  lineComment : Option Text := none
  blockComment : Option (Text × Text) := none
  stringQuote : Option Char := none
  charQuote : Option Char := none
  escape : Option Char := none
  /-- Overrules what is set for all languages. -/
  multiline : Option Bool := none
  deriving DecidableEq, Repr

namespace CustomLanguage

/-- The delimiters, where `multiline` is what is set for all languages. -/
def delimiters (c : CustomLanguage) (multiline : Option Bool) : Delimiters where
  lineComment := c.lineComment
  blockComment := c.blockComment
  stringQuote := c.stringQuote
  charQuote := c.charQuote
  escape := c.escape
  multiline := (c.multiline.or multiline).getD false

/-- The rules of a language with its name. -/
def rules (c : CustomLanguage) (name : String) (multiline : Option Bool) : Except Problem Rules :=
  match (c.delimiters multiline).check with
  | .ok r => .ok r
  | .error e => .error (.badRules name e)

end CustomLanguage

structure Settings where
  /-- The language of files whose extension tells nothing. -/
  defaultLanguage : Option String := none
  /-- How many files to work on at a time; as many as there are processors if
  unset. -/
  jobs : Option Nat := none
  /-- Whether literals may run past their line, in every language. Languages
  keep to their own rules if unset. -/
  multiline : Option Bool := none
  policy : Policy := .default
  /-- Languages with their names, in order. -/
  languages : List (String × CustomLanguage) := []
  deriving DecidableEq, Repr

namespace Settings

/-- There is a language of this name. -/
def knows (s : Settings) (name : String) : Bool :=
  (Language.ofName? name).isSome || s.languages.any fun l => Text.lower l.1 == Text.lower name

/-- The first thing wrong: no jobs, then a language without rules, then an
unknown default language. -/
def check (s : Settings) : Except Problem Unit := do
  if s.jobs = some 0 then throw .noJobs
  s.languages.forM fun (name, c) => do let _ ← c.rules name s.multiline
  match s.defaultLanguage with
  | some name => if !s.knows name then throw (.unknownDefault name)
  | none => pure ()

end Settings
end Gloss
