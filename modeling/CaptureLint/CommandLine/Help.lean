import CaptureLint.CommandLine.Form

/-!
# Help

The texts that describe the program and its commands, and what is said of arguments that cannot be
used.
-/

namespace CaptureLint.CommandLine

def unlines (lines : List String) : String := String.join (lines.map (· ++ "\n"))

def programHelp : String :=
  unlines
    [ "Finds unused capture list entries in Swift closures", "",
      "Usage: caplint <COMMAND>", "",
      "Commands:",
      "  check  Check Swift files for unused capture list entries",
      "  init   Initialize a .caplint.toml configuration file",
      "  help   Print this message or the help of the given subcommand(s)", "",
      "Options:",
      "  -h, --help     Print help",
      "  -V, --version  Print version" ]

def checkHelp : String :=
  unlines
    [ "Check Swift files for unused capture list entries", "",
      "Usage: caplint check [OPTIONS] [PATHS]...", "",
      "Arguments:",
      "  [PATHS]...  Files or directories to check [default: .]", "",
      "Options:",
      "  -c, --config <CONFIG>      Configuration file (default: nearest .caplint.toml) " ++
        "[env: CAPLINT_CONFIG=]",
      "  -f, --format <FORMAT>      Output format (default: from configuration, else terminal) " ++
        "[possible values: json, terminal]",
      "  -o, --output <OUTPUT>      Output file (default: stdout)",
      "      --severity <SEVERITY>  Override the severity of reported violations " ++
        "[possible values: warning, error]",
      "      --strict               Exit with a failure status on warnings too",
      "      --no-parallel          Check files one at a time",
      "      --no-color             Disable colored output",
      "  -v, --verbose...           Increase log verbosity (-v info, -vv debug, -vvv trace)",
      "  -h, --help                 Print help" ]

def initHelp : String :=
  unlines
    [ "Initialize a .caplint.toml configuration file", "",
      "Usage: caplint init [OPTIONS]", "",
      "Options:",
      "  -f, --force  Overwrite an existing configuration file",
      "  -h, --help   Print help" ]

/-- The help that some words ask for: that on the first command among them, if there is one. -/
def helpFor (words : List String) : String :=
  match words.find? fun word => word == "check" || word == "init" with
  | some "check" => checkHelp
  | some _ => initHelp
  | none => programHelp

def UsageError.message : UsageError → String
  | unknownArgument => "unexpected argument found"
  | invalidValue => "invalid or missing value for an argument"
  | argumentConflict => "an argument cannot be used multiple times"
  | tooManyValues => "unexpected value for a flag"
  | invalidSubcommand => "unrecognized subcommand"
  | missingSubcommand => "a subcommand is required"
  | helpRequested => "help requested"
  | versionRequested => "version requested"

def UsageError.text (failure : UsageError) (words : List String) : String :=
  match failure with
  | missingSubcommand => helpFor words
  | _ => unlines [s!"error: {failure.message}", "", "For more information, try '--help'."]

end CaptureLint.CommandLine
