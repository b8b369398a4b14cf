import Gloss.Settings.Basic
/-!
# Registries

The languages of a run: the known ones first, then those of the settings. What
comes later takes over names and extensions. A file is of the language forced
on all files, or the one that claims its extension, or the default.
-/

namespace Gloss

/-- Numbers under names; of two entries for a name the front one counts. -/
abbrev Index := List (String × Nat)

structure Registry where
  entries : List (String × Rules) := []
  byName : Index := []
  byExtension : Index := []
  /-- The language forced on all files. -/
  forced : Option Nat := none
  /-- The default language. -/
  fallback : Option Nat := none

namespace Registry

/-- An extension as it is looked up: without dots in front, in lower case. -/
def claim (extension : String) : String :=
  Text.lower (String.ofList (extension.toList.dropWhile (· == '.')))

/-- The registry with one more language. -/
def add (g : Registry) (name : String) (rules : Rules) (extensions : List String) : Registry :=
  let n := g.entries.length
  { g with
    entries := g.entries ++ [(Text.lower name, rules)]
    byName := (Text.lower name, n) :: g.byName
    byExtension := extensions.foldl (fun index e => (claim e, n) :: index) g.byExtension }

/-- The number of a language by its name, or by the name it is an alias of. -/
def number? (g : Registry) (name : String) : Option Nat :=
  g.byName.lookup (Text.lower name) <|>
    (Language.ofName? name).bind fun l => g.byName.lookup l.name

def require (g : Registry) (name : String) : Except Problem Nat :=
  match g.number? name with
  | some n => .ok n
  | none => .error (.unknownLanguage name)

/-- The rules of a known language under the settings. -/
def rulesOf (s : Settings) (l : Language) : Rules :=
  match s.multiline with
  | some allow => l.rules.withMultiline allow
  | none => l.rules

/-- The known languages. -/
def known (s : Settings) : Registry :=
  Language.all.foldl (fun g l => g.add l.name (rulesOf s l) l.extensions) {}

/-- All languages, with one forced on all files if a name is given. -/
def ofSettings (s : Settings) (forced : Option String) : Except Problem Registry := do
  let g ← s.languages.foldlM (fun g (name, c) => do
    return g.add name (← c.rules name s.multiline) c.extensions) (known s)
  let forced ← forced.mapM g.require
  let fallback ← s.defaultLanguage.mapM g.require
  return { g with forced, fallback }

/-- The number of the language that claims the extension of a path. -/
def claimant? (g : Registry) (p : Path) : Option Nat :=
  p.extension?.bind fun e => g.byExtension.lookup (Text.lower e)

/-- A language claims the extension of the path. -/
def claims (g : Registry) (p : Path) : Bool := (g.claimant? p).isSome

/-- Name and rules of the language of a file. -/
def resolve (g : Registry) (p : Path) : Except Problem (String × Rules) :=
  match (g.forced <|> g.claimant? p <|> g.fallback).bind (g.entries[·]?) with
  | some entry => .ok entry
  | none => .error (.undetermined p)

end Registry
end Gloss
