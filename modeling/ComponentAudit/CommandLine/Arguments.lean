import ComponentAudit.Text.Find

/-!
# Arguments

Reads the arguments of a subcommand: flags, options with a value in the next argument or after an
equals sign, and positional arguments. After `--` all arguments are positional. The first fault
ends the reading. An option still waits for its value when the next argument comes, so that a
missing value or a repeated option is noticed only then.
-/

namespace ComponentAudit.CommandLine

/-- Why arguments are not carried out as a command. -/
inductive UsageFault where
  | unknownArgument
  | invalidSubcommand
  | missingSubcommand
  /-- A positional argument is missing. -/
  | missingArgument
  /-- An option has no value. -/
  | missingValue
  /-- A flag has a value. -/
  | unexpectedValue
  /-- A flag or option is given twice. -/
  | repeated
  | helpAsked
  | versionAsked
  /-- There are no arguments at all. -/
  | nothingGiven
  deriving DecidableEq, Repr

/-- The exit code when no command is carried out. -/
def UsageFault.exitCode : UsageFault → Nat
  | .helpAsked => 0
  | .versionAsked => 0
  | _ => 2

/-- The arguments that a subcommand takes. -/
structure Shape where
  flags : List String := []
  options : List String := []
  /-- How many positional arguments there may be. -/
  positionals : Nat := 0
  /-- How many positional arguments there must be. -/
  required : Nat := 0
  deriving DecidableEq, Repr

/-- The arguments that were given. -/
structure Given where
  flags : List String := []
  values : List (String × String) := []
  positionals : List String := []
  deriving DecidableEq, Repr

/-- The value of an option. -/
def Given.value? (g : Given) (name : String) : Option String := g.values.lookup name

/-- The positional argument at an index. -/
def Given.positional? (g : Given) (i : Nat) : Option String := g.positionals[i]?

/-- Whether a flag was given. -/
def Given.hasFlag (g : Given) (name : String) : Bool := g.flags.contains name

/-! ### Single arguments -/

/-- What an argument looks like, before it is known what the subcommand takes. -/
inductive ArgumentForm where
  /-- `--`. -/
  | separator
  /-- `--name` or `--name=value`. -/
  | long (name : String) (value : Option String)
  /-- `-x…`, by its first letter. -/
  | short (letter : Char)
  | plain
  deriving DecidableEq, Repr

/-- The form of an argument. A lone `-` is plain. -/
def ArgumentForm.of (arg : String) : ArgumentForm :=
  match arg.toList with
  | ['-', '-'] => .separator
  | '-' :: '-' :: s =>
    match Text.findChar? '=' s with
    | some n => .long (String.ofList (s.take n)) (some (String.ofList (s.drop (n + 1))))
    | none => .long (String.ofList s) none
  | '-' :: c :: _ => .short c
  | _ => .plain

/-! ### Reading -/

/-- An option whose value is being waited for, or has come and is not yet recorded. -/
structure Waiting where
  name : String
  value : Option String
  deriving DecidableEq, Repr

/-- The state of reading. -/
structure Progress where
  given : Given := {}
  waiting : Option Waiting := none
  /-- A `--` was met. -/
  trailing : Bool := false
  deriving DecidableEq, Repr

namespace Progress

/-- Records the value of an option. -/
def record (p : Progress) (name value : String) : Except UsageFault Progress :=
  if (p.given.value? name).isSome then .error .repeated
  else .ok { p with given := { p.given with values := p.given.values ++ [(name, value)] } }

/-- Records the option that is waiting. -/
def settle (p : Progress) : Except UsageFault Progress :=
  match p.waiting with
  | none => .ok p
  -- Something else came before a value did.
  | some ⟨_, none⟩ => .error .missingValue
  | some ⟨name, some value⟩ => { p with waiting := none }.record name value

/-- Takes a flag. -/
def addFlag (p : Progress) (name : String) : Except UsageFault Progress := do
  let p ← p.settle
  if p.given.hasFlag name then .error .repeated
  else return { p with given := { p.given with flags := p.given.flags ++ [name] } }

/-- Takes a positional argument, if there may be one more. -/
def addPositional (shape : Shape) (p : Progress) (arg : String) : Except UsageFault Progress :=
  -- An argument too many is noticed before the option that still waits.
  if shape.positionals ≤ p.given.positionals.length then .error .unknownArgument
  else do
    let p ← p.settle
    return { p with given := { p.given with positionals := p.given.positionals ++ [arg] } }

/-- Takes an argument with two dashes. -/
def addLong (shape : Shape) (p : Progress) (name : String) (value : Option String) :
    Except UsageFault Progress :=
  if name = "help" || shape.flags.contains name then
    match value with
    | some _ => .error .unexpectedValue
    | none =>
      if name = "help" then do
        let _ ← p.settle
        .error .helpAsked
      else p.addFlag name
  else if shape.options.contains name then do
    let p ← p.settle
    match value with
    | some v => p.record name v
    | none => return { p with waiting := some ⟨name, none⟩ }
  else .error .unknownArgument

/-- Takes an argument. -/
def add (shape : Shape) (p : Progress) (arg : String) : Except UsageFault Progress :=
  if p.trailing then p.addPositional shape arg
  else match ArgumentForm.of arg with
    | .separator => .ok { p with trailing := true }
    | .long name value => p.addLong shape name value
    | .short letter => do
      if letter = 'h' then
        let _ ← p.settle
        .error .helpAsked
      else .error .unknownArgument
    | .plain =>
      match p.waiting with
      | some ⟨name, none⟩ => .ok { p with waiting := some ⟨name, some arg⟩ }
      | _ => p.addPositional shape arg

end Progress

/-- Reads the arguments of a subcommand. -/
def Shape.read (shape : Shape) (args : List String) : Except UsageFault Given := do
  let p ← args.foldlM (Progress.add shape) {}
  let p ← p.settle
  if p.given.positionals.length < shape.required then .error .missingArgument
  else return p.given

end ComponentAudit.CommandLine
