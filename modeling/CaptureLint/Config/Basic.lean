import CaptureLint.Failure
import CaptureLint.Lint.Source
import CaptureLint.Report.Format

/-!
# Configuration

What a configuration file can say, section by section, and what holds where it says nothing.
-/

namespace CaptureLint

structure OutputSettings where
  /-- The name of a format; whether there is such a format is not checked here. -/
  defaultFormat : Option String
  useColour : Option Bool
deriving DecidableEq, Repr

structure Config where
  unusedCapture : Option RuleSettings
  /-- Glob patterns of files that are not linted. -/
  ignorePatterns : Option (List String)
  output : Option OutputSettings
deriving DecidableEq, Repr

namespace Config

def default : Config := ⟨none, none, none⟩

variable (config : Config)

def unusedCaptureSettings : RuleSettings := config.unusedCapture.getD .default

def patterns : List String := config.ignorePatterns.getD []

def defaultFormat? : Option String := config.output.bind (·.defaultFormat)

def useColour? : Option Bool := config.output.bind (·.useColour)

def rules : List Rule :=
  if config.unusedCaptureSettings.enabled then [.unusedCapture config.unusedCaptureSettings] else []

def withSeverity (severity : Option Severity) : Config :=
  match severity with
  | none => config
  | some severity =>
      { config with unusedCapture := some { config.unusedCaptureSettings with severity } }

end Config

end CaptureLint
