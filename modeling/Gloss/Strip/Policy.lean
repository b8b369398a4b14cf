import Gloss.Text.Basic
/-!
# Policies

What becomes of the lines that a removed comment leaves behind.
-/

namespace Gloss

inductive Policy where
  /-- Every line stays; a line that held only a comment becomes empty. -/
  | preserve
  /-- A line that a removed comment leaves empty goes; blank lines stay. -/
  | collapse
  deriving DecidableEq, Repr

namespace Policy

def default : Policy := .preserve

def name : Policy → String
  | .preserve => "preserve"
  | .collapse => "collapse"

/-- The policy of a name, in its short or long form. ASCII case does not matter. -/
def ofName? (s : String) : Option Policy :=
  match Text.lower s with
  | "preserve" | "preserve-lines" => some .preserve
  | "collapse" | "collapse-lines" => some .collapse
  | _ => none

/-- What is said of a name that is no policy. -/
def unknown (s : String) : String :=
  s!"unknown reassembly policy `{s}` (expected `preserve` or `collapse`)"

end Policy
end Gloss
