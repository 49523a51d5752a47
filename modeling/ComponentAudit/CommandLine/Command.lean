import ComponentAudit.CommandLine.Arguments

/-!
# Commands

The subcommands of the program with what each is told.
-/

namespace ComponentAudit.CommandLine

/-- A subcommand with its arguments. -/
inductive Command where
  | version
  | scan (path : Option String) (noAccessibility : Bool) (output versionKey : Option String)
      (sequential : Bool)
  | validate (file component : String) (output : Option String)
  | report (path format : Option String)
  | serve
  | catalog (versionKey output : Option String)
  deriving DecidableEq, Repr

/-- A command and whether it tells what it does. -/
structure Invocation where
  verbose : Bool
  command : Command
  deriving DecidableEq, Repr

/-! ### Subcommands -/

/-- The flag that every subcommand takes, and that may also stand before it. -/
def verboseFlag : String := "verbose"

/-- What a subcommand takes. -/
def shape? : String → Option Shape
  | "version" => some { flags := [verboseFlag] }
  | "scan" => some {
      flags := [verboseFlag, "no-accessibility", "sequential"]
      options := ["output", "version-key"]
      positionals := 1 }
  | "validate" => some {
      flags := [verboseFlag], options := ["output"], positionals := 2, required := 2 }
  | "report" => some { flags := [verboseFlag], options := ["format"], positionals := 1 }
  | "serve" => some { flags := [verboseFlag] }
  | "catalog" => some { flags := [verboseFlag], options := ["version-key", "output"] }
  | _ => none

/-- The command of a subcommand with the arguments that were given. -/
def command (name : String) (g : Given) : Command :=
  match name with
  | "scan" => .scan (g.positional? 0) (g.hasFlag "no-accessibility") (g.value? "output")
      (g.value? "version-key") (g.hasFlag "sequential")
  | "validate" => .validate ((g.positional? 0).getD "") ((g.positional? 1).getD "")
      (g.value? "output")
  | "report" => .report (g.positional? 0) (g.value? "format")
  | "serve" => .serve
  | "catalog" => .catalog (g.value? "version-key") (g.value? "output")
  | _ => .version

/-! ### The whole line -/

/-- The name of the subcommand that shows help. -/
def helpName : String := "help"

/-- The flags that may stand before the subcommand. -/
def rootFlags : List String := ["help", "version", verboseFlag]

/-- Whether there is a subcommand of that name. -/
def isSubcommand (name : String) : Bool := name = helpName || (shape? name).isSome

/-- The answer to a call for help on the subcommands named, of which there may be one. -/
def helpFault : List String → UsageFault
  | [] => .helpAsked
  | [name] => if isSubcommand name then .helpAsked else .invalidSubcommand
  | _ => .invalidSubcommand

/-- Reads the arguments of the program: flags, then the subcommand with its arguments. `verbose`
tells whether the flag was met, and `trailing` whether a `--` was. -/
def readFrom (verbose trailing : Bool) : List String → Except UsageFault Invocation
  | [] => .error (if verbose then .missingSubcommand else .nothingGiven)
  | arg :: args =>
    -- After `--` nothing is a subcommand any more.
    if trailing then
      .error (if isSubcommand arg then .unknownArgument else .invalidSubcommand)
    else if arg = helpName then .error (helpFault args)
    else match shape? arg with
      | some shape =>
        (shape.read args).map fun g => ⟨verbose || g.hasFlag verboseFlag, command arg g⟩
      | none =>
        match ArgumentForm.of arg with
        | .separator => readFrom verbose true args
        | .long name value =>
          if !rootFlags.contains name then .error .unknownArgument
          else if value.isSome then .error .unexpectedValue
          else if name = "help" then .error .helpAsked
          else if name = "version" then .error .versionAsked
          else if verbose then .error .repeated
          else readFrom true false args
        | .short letter =>
          .error (if letter = 'h' then .helpAsked
            else if letter = 'V' then .versionAsked
            else .unknownArgument)
        | .plain => .error .invalidSubcommand

/-- Reads the arguments of the program. -/
def Invocation.read (args : List String) : Except UsageFault Invocation := readFrom false false args

end ComponentAudit.CommandLine
