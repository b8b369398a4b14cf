import Gloss.Command.Check
import Gloss.Command.Extract
import Gloss.Command.Spans
import Gloss.Command.Strip
import Gloss.CommandLine.Reading
/-!
# Invocations

What the arguments and the environment ask for. An option behind the command
overrules the same option in front of it, and both overrule the environment.
Variables that stand in for options must hold what the options take.
-/

namespace Gloss.CommandLine

/-- Variables with their values. -/
abbrev Environment := List (String × String)

/-- A command with its arguments. -/
inductive Request where
  | strip (r : Command.StripRequest)
  | extract (r : Command.ExtractRequest)
  | spans (r : Command.SpansRequest)
  | check (r : Command.CheckRequest)
  deriving DecidableEq, Repr

structure Invocation where
  verbose : Bool
  /-- The settings file. -/
  config : Option Path
  request : Request
  deriving DecidableEq, Repr

/-- The value of the variable that stands in for an option. -/
def Environment.value? (env : Environment) (o : Opt) : Option String :=
  o.standIn?.bind fun name => List.lookup name env

/-- The end of a level: the last argument, the variables of options that were
not given, and the inputs are looked at. -/
def finish (l : Level) (env : Environment) (r : Reading) : Except Stop Reading := do
  let r ← r.settle
  for o in l.options do
    if !r.has o && (env.value? o).any (!o.takes.accepts ·) then throw .refused
  if l.maxInputs ≠ some 0 ∧ r.inputs = [] then throw .refused
  return r

/-- The command with its arguments. -/
def Reading.request (c : CommandName) (r : Reading) : Request :=
  let inputs := r.inputs.map fun p => (⟨p⟩ : Path)
  let text := fun o => r.given.lookup o
  match c with
  | .strip => .strip {
      inputs
      output := (text .output).map fun p => ⟨p⟩
      policy := text .policy
      language := text .language
      force := r.has .force }
  | .extract => .extract { inputs, format := text .format, language := text .language }
  | .spans => .spans { input := inputs.headD ⟨""⟩, language := text .language }
  | .check => .check { inputs, language := text .language, denyWarnings := r.has .denyWarnings }

/-- What is asked for. -/
def invocation (args : List String) (env : Environment) : Except Stop Invocation := do
  let (outer, rest) ← readLevel .program {} args
  match rest with
  | none => throw .refused
  | some (c, rest) =>
    let (inner, _) ← readLevel (.command c) {} rest
    let inner ← finish (.command c) env inner
    let outer ← finish .program env outer
    let value := fun o => inner.given.lookup o <|> outer.given.lookup o <|> env.value? o
    return {
      verbose := value .verbose == some "true"
      config := (value .config).map fun p => ⟨p⟩
      request := inner.request c }

end Gloss.CommandLine
