import CaptureLint.Proofs.Json.RoundTrip
import CaptureLint.Report.Json

/-!
# Reading written reports

A report is written as a JSON value field by field and read back by the names of the fields.  Every
record is the one that its object was made from, whether or not a violation has a file, so a report
that is written as text is read back as it was.
-/

namespace CaptureLint

open Json

/-! ## Values of records -/

/-- The fields of a violation are found by name, the file too if it is there. -/
theorem Violation.ofJson?_toJson (violation : Violation) :
    ofJson? violation.toJson = some violation := by
  obtain ⟨ruleId, reference, file, offset, location, severity, message⟩ := violation
  cases file with
  | none => cases severity <;> rfl
  | some file => cases severity <;> rfl

theorem mapM_map_of_inverse {α : Type} (write : α → Value) (read? : Value → Option α)
    (h : ∀ item, read? (write item) = some item) (items : List α) :
    (items.map write).mapM read? = some items := by
  induction items with
  | nil => rfl
  | cons item items ih => simp [h, ih]

theorem FileReport.ofJson?_toJson (file : FileReport) : ofJson? file.toJson = some file := by
  have hviolations := mapM_map_of_inverse _ _ Violation.ofJson?_toJson file.violations
  show ((file.violations.map Violation.toJson).mapM Violation.ofJson?).bind
    (fun found => some (FileReport.mk file.path found)) = _
  rw [hviolations]
  rfl

theorem Report.ofJson?_toJson (report : Report) : ofJson? report.toJson = some report := by
  have hfiles := mapM_map_of_inverse _ _ FileReport.ofJson?_toJson report.files
  have hfailed := mapM_map_of_inverse .string Value.string? (fun _ => rfl) report.failed
  show ((report.files.map FileReport.toJson).mapM FileReport.ofJson?).bind (fun found =>
    ((report.failed.map Value.string).mapM Value.string?).bind fun failed =>
      some (Report.mk found report.checked failed)) = _
  rw [hfiles, hfailed]
  rfl

/-! ## Texts of reports -/

theorem Location.plain_toJson (place : Location) : Plain place.toJson := by
  apply Plain.object
  simp only [List.forall_mem_cons, List.not_mem_nil, false_implies, implies_true, and_true]
  exact ⟨.natural _, .natural _⟩

theorem Violation.plain_toJson (violation : Violation) : Plain violation.toJson := by
  apply Plain.object
  have hfile : ∀ member ∈ (violation.file.map fun file => ("file", Value.string file)).toList,
      Plain member.2 := by
    cases violation.file with
    | none => simp
    | some file => simpa using Plain.string file
  simp only [List.forall_mem_append, List.forall_mem_cons, List.not_mem_nil, false_implies,
    implies_true, and_true]
  exact ⟨⟨⟨.string _, .string _⟩, hfile⟩, .natural _, violation.location.plain_toJson, .string _,
    .string _⟩

theorem FileReport.plain_toJson (file : FileReport) : Plain file.toJson := by
  apply Plain.object
  simp only [List.forall_mem_cons, List.not_mem_nil, false_implies, implies_true, and_true]
  refine ⟨.string _, .array ?_⟩
  rw [List.forall_mem_map]
  exact fun violation _ => violation.plain_toJson

theorem Report.plain_toJson (report : Report) : Plain report.toJson := by
  apply Plain.object
  simp only [List.forall_mem_cons, List.not_mem_nil, false_implies, implies_true, and_true]
  refine ⟨.array ?_, .natural _, .array ?_⟩
  · rw [List.forall_mem_map]
    exact fun file _ => file.plain_toJson
  · rw [List.forall_mem_map]
    exact fun path _ => .string path

/-- A report that is written as JSON is read back as it was: every violation of every file with all
its fields, the counts, and the paths, whatever characters the texts hold. -/
theorem Report.readJson?_renderJson (report : Report) :
    Report.readJson? report.renderJson = some report := by
  rw [readJson?, renderJson, String.toList_ofList, report.plain_toJson.read?]
  exact report.ofJson?_toJson

end CaptureLint
