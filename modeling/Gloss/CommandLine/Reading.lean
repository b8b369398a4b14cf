import Gloss.CommandLine.Option
/-!
# Reading arguments

The arguments of a level are read from left to right. An option may have its
value in the same argument or in the next one, and short options may share an
argument. No option may be given twice at one level. What was read last is
looked at when the next option or input comes, or at the end: so a bad value
is refused before a call for help behind it is heeded, but not one right in
front of a command.
-/

namespace Gloss.CommandLine

/-- What help can be had about. -/
inductive Topic where
  | level (l : Level)
  /-- The help itself. -/
  | help
  deriving DecidableEq, Repr

/-- Why reading ends before the arguments do. -/
inductive Stop where
  | refused
  /-- At length, or in short. -/
  | help (topic : Topic) (long : Bool)
  | version (l : Level)
  deriving DecidableEq, Repr

/-- What was read last. -/
inductive Pending where
  | nothing
  | opt (o : Opt) (value : Option String)
  | inputs (values : List String)
  deriving DecidableEq, Repr

/-- The arguments of a level as far as they are read. -/
structure Reading where
  /-- Options with their values; those that take none have `"true"`. -/
  given : List (Opt × String) := []
  inputs : List String := []
  pending : Pending := .nothing
  /-- All that follows is an input. -/
  onlyInputs : Bool := false
  deriving DecidableEq, Repr

/-- What an option stands for. -/
inductive Meaning where
  | opt (o : Opt)
  | help
  | version
  deriving DecidableEq, Repr

def Level.long? (l : Level) (name : String) : Option Meaning :=
  if name = "help" then some .help
  else if name = "version" then some .version
  else (l.options.find? (·.long == name)).map .opt

def Level.short? (l : Level) (c : Char) : Option Meaning :=
  if c = 'h' then some .help
  else if c = 'V' then some .version
  else (l.options.find? (·.short? == some c)).map .opt

namespace Reading

def has (r : Reading) (o : Opt) : Bool := r.given.any (·.1 == o)

/-- An option with its value. -/
def give (r : Reading) (o : Opt) (value : String) : Except Stop Reading :=
  if r.has o || !o.takes.accepts value then .error .refused
  else .ok { r with given := r.given ++ [(o, value)] }

/-- Looks at what was read last. -/
def settle (r : Reading) : Except Stop Reading :=
  let calm := { r with pending := .nothing }
  match r.pending with
  | .nothing => .ok r
  | .opt _ none => .error .refused
  | .opt o (some value) => calm.give o value
  | .inputs values =>
    if values.all Takes.path.accepts then .ok { calm with inputs := r.inputs ++ values }
    else .error .refused

/-- An option waits for its value. -/
def waits (r : Reading) : Bool :=
  match r.pending with
  | .opt _ none => true
  | _ => false

/-- An argument that is no option: a value or an input. -/
def word (l : Level) (r : Reading) (arg : String) : Except Stop Reading := do
  match r.onlyInputs, r.pending with
  | false, .opt o none => return { r with pending := .opt o (some arg) }
  | _, .inputs values =>
    if l.maxInputs.any (· ≤ r.inputs.length + values.length) then throw .refused
    return { r with pending := .inputs (values ++ [arg]) }
  | _, _ =>
    let r ← r.settle
    if l.maxInputs.any (· ≤ r.inputs.length) then throw .refused
    return { r with pending := .inputs [arg] }

/-- An option, with its value if that is attached. -/
def option (l : Level) (r : Reading) (m : Meaning) (isLong : Bool) (attached : Option String) :
    Except Stop Reading := do
  let r ← r.settle
  match m, attached with
  | .opt o, some value => if o.takes = .nothing then throw .refused else r.give o value
  | .opt o, none => if o.takes = .nothing then r.give o "true" else return { r with pending := .opt o none }
  | .help, none => throw (.help (.level l) isLong)
  | .version, none => throw (.version l)
  | _, some _ => throw .refused

/-- An option by its long name, perhaps with a value behind an equals sign. -/
def long (l : Level) (r : Reading) (body : List Char) : Except Stop Reading :=
  let name := String.ofList (body.takeWhile (· != '='))
  let attached := match body.dropWhile (· != '=') with
    | [] => none
    | _ :: value => some (String.ofList value)
  match l.long? name with
  | some m => r.option l m true attached
  | none => .error .refused

/-- Options by their short names. What follows one that takes a value is its
value, with an equals sign in front or not. -/
def shorts (l : Level) (r : Reading) : List Char → Except Stop Reading
  | [] => .ok r
  | c :: rest =>
    match l.short? c with
    | none => .error .refused
    | some (.opt o) =>
      if o.takes = .nothing then do shorts l (← r.option l (.opt o) false none) rest
      else
        match rest with
        | [] => r.option l (.opt o) false none
        | '=' :: value => r.option l (.opt o) false (some (String.ofList value))
        | value => r.option l (.opt o) false (some (String.ofList value))
    | some m => r.option l m false none

end Reading

/-- What a call for help names. -/
def topic : List String → Stop
  | [] => .help (.level .program) true
  | [name] =>
    if name = "help" then .help .help true
    else
      match CommandName.ofText? name with
      | some c => .help (.level (.command c)) true
      | none => .refused
  | _ => .refused

/-- Reads the arguments of a level, for the program up to a command: the
command and what follows it are left. -/
def readLevel (l : Level) (r : Reading) :
    List String → Except Stop (Reading × Option (CommandName × List String))
  | [] => .ok (r, none)
  | arg :: rest =>
    if r.onlyInputs then do readLevel l (← r.word l arg) rest
    else if l = .program ∧ !r.waits ∧ arg = "help" then .error (topic rest)
    else
      match if l = .program ∧ !r.waits then CommandName.ofText? arg else none with
      | some c => .ok (r, some (c, rest))
      | none =>
        match arg.toList with
        | ['-', '-'] => readLevel l { r with onlyInputs := true } rest
        | '-' :: '-' :: body => do readLevel l (← r.long l body) rest
        | '-' :: c :: body => do readLevel l (← r.shorts l (c :: body)) rest
        | _ => do readLevel l (← r.word l arg) rest

end Gloss.CommandLine
