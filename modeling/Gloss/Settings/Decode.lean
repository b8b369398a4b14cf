import Gloss.Settings.Basic
import Gloss.Toml.Document
/-!
# Settings in TOML

A setting that is left out keeps its default; one that no setting is called by
is an error. A group of settings is a table, or an array with the settings in
their order.
-/

namespace Gloss

open Toml

/-- Takes a value as an `α`. -/
abbrev Decoder (α : Type) := Value → Option α

namespace Decoder

/-! ## Values -/

def string : Decoder String
  | .string s => some s
  | _ => none

def boolean : Decoder Bool
  | .boolean b => some b
  | _ => none

/-- A number that fits 32 bits. -/
def count : Decoder Nat
  | .integer n => if 0 ≤ n ∧ n < Int.pow 2 32 then some n.toNat else none
  | _ => none

/-- A string of one character. -/
def character : Decoder Char
  | .string s =>
    match s.toList with
    | [c] => some c
    | _ => none
  | _ => none

def text : Decoder Text := fun v => (string v).map String.toList

/-- The values of an array. -/
def elements : Decoder (List Value)
  | .array xs => some xs
  | .tables ts => some (ts.map (.table .header))
  | _ => none

def strings : Decoder (List String) := fun v => do (← elements v).mapM string

/-- The first two strings of an array. -/
def pair : Decoder (Text × Text) := fun v => do
  match ← elements v with
  | a :: b :: _ => return (← text a, ← text b)
  | _ => none

def isEmpty : Value → Bool
  | .array [] | .tables [] | .table _ [] => true
  | _ => false

def policyOf : String → Option Policy
  | "preserve" => some .preserve
  | "collapse" => some .collapse
  | _ => none

/-- The name of a policy, or a table with the name for its only key and nothing
below it. -/
def policy : Decoder Policy
  | .string s => policyOf s
  | .table _ [(name, v)] => if isEmpty v then policyOf name else none
  | _ => none

/-! ## Groups -/

/-- The settings of a group by their names, given all the names in order. -/
def group (names : List String) : Decoder (String → Option Value)
  | .table _ entries =>
    if entries.all fun e => names.contains e.1 then some (entries.lookup ·) else none
  | .array xs => some ((names.zip xs).lookup ·)
  | .tables ts => some ((names.zip (ts.map (Value.table .header))).lookup ·)
  | _ => none

/-- A setting that may be left out. -/
def optionally {α : Type} (decode : Decoder α) : Option Value → Option (Option α)
  | none => some none
  | some v => (decode v).map some

/-- A setting with a default. -/
def orElse {α : Type} (default : α) (decode : Decoder α) : Option Value → Option α
  | none => some default
  | some v => decode v

def scanGroup : Decoder (Option Bool) := fun v => do
  let get ← group ["allow_multiline_literals"] v
  optionally boolean (get "allow_multiline_literals")

def stripGroup : Decoder Policy := fun v => do
  let get ← group ["policy"] v
  orElse .default policy (get "policy")

def customLanguage : Decoder CustomLanguage := fun v => do
  let get ← group ["extensions", "line_comment", "block_comment", "string_quote", "char_quote",
    "escape", "allow_multiline_literals"] v
  return {
    extensions := ← orElse [] strings (get "extensions")
    lineComment := ← optionally text (get "line_comment")
    blockComment := ← optionally pair (get "block_comment")
    stringQuote := ← optionally character (get "string_quote")
    charQuote := ← optionally character (get "char_quote")
    escape := ← optionally character (get "escape")
    multiline := ← optionally boolean (get "allow_multiline_literals") }

def customLanguages : Decoder (List (String × CustomLanguage))
  | .table _ entries => entries.mapM fun (name, v) => do return (name, ← customLanguage v)
  | _ => none

/-- All settings. -/
def settings : Decoder Settings := fun v => do
  let get ← group ["default_language", "jobs", "scan", "strip", "languages"] v
  return {
    defaultLanguage := ← optionally string (get "default_language")
    jobs := ← optionally count (get "jobs")
    multiline := ← orElse none scanGroup (get "scan")
    policy := ← orElse .default stripGroup (get "strip")
    languages := ← orElse [] customLanguages (get "languages") }

end Decoder

/-- The settings of a document, if nothing is wrong with them. -/
def Settings.ofToml (document : String) : Except Problem Settings :=
  match (parse? document.toList).bind fun es => Decoder.settings (.table .header es) with
  | none => .error .malformedSettings
  | some s => s.check.map fun _ => s

end Gloss
