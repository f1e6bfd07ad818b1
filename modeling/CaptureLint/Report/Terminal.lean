import CaptureLint.Report.Basic
import CaptureLint.Report.Style

/-!
# Reports for a terminal

One line for each violation, then, if there are any, an empty line, and a summary.  Colours change
nothing but the escape sequences around some words.
-/

namespace CaptureLint.Report

open Style

def severityStyle : Severity → Style
  | .error => .boldRed
  | .warning => .boldYellow

def violationLine (colour : Bool) (violation : Violation) : List Char :=
  paint colour .bold violation.displayFile ++ [':'] ++ violation.location.render.toList ++
    [':', ' '] ++ paint colour (severityStyle violation.severity) violation.severity.name ++
    [':', ' '] ++ violation.message.toList ++ [' '] ++
    paint colour .dimmed s!"({violation.ruleId})" ++ ['\n']

def summaryLine (colour : Bool) (report : Report) : List Char :=
  if report.total = 0 then
    paint colour .green "✓" ++
      s!" No unused capture list entries in {report.checked} file(s)\n".toList
  else
    paint colour .red "✗" ++ " Found ".toList ++ paint colour .bold (toString report.total) ++
      (s!" violation(s) ({report.countAt .error} error(s), {report.countAt .warning} warning(s))" ++
        s!" in {report.files.length} of {report.checked} file(s)\n").toList

def failedLine (colour : Bool) (report : Report) : List Char :=
  if report.failed.isEmpty then []
  else
    paint colour .yellow "!" ++ s!" {report.failed.length} file(s) could not be read\n".toList

def terminalText (colour : Bool) (report : Report) : List Char :=
  report.violations.flatMap (violationLine colour) ++
    (if report.total = 0 then [] else ['\n']) ++
    summaryLine colour report ++ failedLine colour report

def renderTerminal (colour : Bool) (report : Report) : String :=
  String.ofList (report.terminalText colour)

end CaptureLint.Report
