import CaptureLint.Violation

/-!
# Reports

The outcome of linting some files: the violations by file, the number of files that were read, and
the files that could not be read.
-/

namespace CaptureLint

structure FileReport where
  path : String
  violations : List Violation
deriving DecidableEq, Repr

structure Report where
  /-- The files with violations, in the order of their paths. -/
  files : List FileReport
  /-- The number of files that were read. -/
  checked : Nat
  /-- The files that could not be read. -/
  failed : List String
deriving DecidableEq, Repr

namespace Report

def empty : Report := ⟨[], 0, []⟩

def violations (report : Report) : List Violation := report.files.flatMap (·.violations)

def total (report : Report) : Nat := report.violations.length

def countAt (report : Report) (severity : Severity) : Nat :=
  report.violations.countP (·.severity == severity)

/-- Whether a run with this outcome has failed: an error makes it fail, and with `strict` every
violation. -/
def fails (report : Report) (strict : Bool) : Bool :=
  if strict then 0 < report.total else 0 < report.countAt .error

end Report

end CaptureLint
