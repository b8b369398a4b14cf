import Gloss.Rules.Basic
/-!
# Languages

The languages known from the start: names, file extensions and rules. Rules
say what a scan can express, so raw strings, template literals and triple
quotes are read as their one-quote forms.
-/

namespace Gloss

inductive Language where
  | java | c | cpp | csharp | javascript | typescript | go | kotlin | swift | scala | python
  | shell | sql
  deriving DecidableEq, Repr

namespace Language

/-- Every language, in the order of listings. -/
def all : List Language :=
  [.java, .c, .cpp, .csharp, .javascript, .typescript, .go, .kotlin, .swift, .scala, .python,
    .shell, .sql]

theorem mem_all (l : Language) : l ∈ all := by cases l <;> decide

def name : Language → String
  | .java => "java"
  | .c => "c"
  | .cpp => "cpp"
  | .csharp => "csharp"
  | .javascript => "javascript"
  | .typescript => "typescript"
  | .go => "go"
  | .kotlin => "kotlin"
  | .swift => "swift"
  | .scala => "scala"
  | .python => "python"
  | .shell => "shell"
  | .sql => "sql"

/-- What else the language may be called. -/
def aliases : Language → List String
  | .cpp => ["c++", "cxx"]
  | .csharp => ["c#", "cs"]
  | .javascript => ["js"]
  | .typescript => ["ts"]
  | .go => ["golang"]
  | .kotlin => ["kt"]
  | .python => ["py"]
  | .shell => ["sh", "bash", "zsh"]
  | _ => []

/-- File extensions, without the dot. -/
def extensions : Language → List String
  | .java => ["java"]
  | .c => ["c", "h"]
  | .cpp => ["cpp", "cc", "cxx", "hpp", "hh", "hxx"]
  | .csharp => ["cs"]
  | .javascript => ["js", "mjs", "cjs", "jsx"]
  | .typescript => ["ts", "mts", "cts", "tsx"]
  | .go => ["go"]
  | .kotlin => ["kt", "kts"]
  | .swift => ["swift"]
  | .scala => ["scala", "sc"]
  | .python => ["py", "pyi"]
  | .shell => ["sh", "bash", "zsh"]
  | .sql => ["sql"]

/-- The language of a name or an alias. ASCII case does not matter. -/
def ofName? (s : String) : Option Language :=
  all.find? fun l => l.name == Text.lower s || l.aliases.contains (Text.lower s)

/-- The language of a file extension. ASCII case does not matter. -/
def ofExtension? (s : String) : Option Language :=
  all.find? fun l => l.extensions.contains (Text.lower s)

/-- A number sign comments out the line; there are no block comments. -/
def numberSign : Rules where
  lineComment := some ['#']
  stringQuote := some '"'
  charQuote := some '\''
  escape := some '\\'
  sound := by decide

/-- Quotes are doubled, not escaped, and the double quote is for identifiers. -/
def doubledQuotes : Rules where
  lineComment := some ['-', '-']
  blockComment := some (['/', '*'], ['*', '/'])
  stringQuote := some '\''
  charQuote := some '"'
  sound := by decide

def rules : Language → Rules
  | .python | .shell => numberSign
  | .sql => doubledQuotes
  | _ => .common

theorem ofName?_name (l : Language) : ofName? l.name = some l := by cases l <;> decide

end Language
end Gloss
