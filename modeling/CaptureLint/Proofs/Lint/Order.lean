import CaptureLint.Config.Basic
import CaptureLint.Proofs.Rule.Window

/-!
# The order of findings

Linting visits the nodes of a structure from left to right, each before the nodes inside it.  Every
finding of a closure stands in its window, and the windows stand in the order in which the closures
are visited.  So the findings come sorted, and no two of them are about the same place.
-/

namespace CaptureLint.Logged

theorem value_mapM_loop {α β : Type} (f : α → Logged β) (items : List α) (done : List β) :
    (List.mapM.loop f items done).value = done.reverse ++ items.map fun item => (f item).value := by
  induction items generalizing done with
  | nil => simp [List.mapM.loop]
  | cons item items ih => simp [List.mapM.loop, ih]

@[simp] theorem value_mapM {α β : Type} (f : α → Logged β) (items : List α) :
    (items.mapM f).value = items.map fun item => (f item).value := by
  rw [List.mapM, value_mapM_loop, List.reverse_nil, List.nil_append]

end CaptureLint.Logged

namespace CaptureLint.Lint

open Node Suppression

variable {rules : List Rule} {program : Program} {source : Source} {node : Node}

/-! ## Findings of one node -/

def foundAt (rules : List Rule) (program : Program) (node : Node) : List Violation :=
  rules.flatMap fun rule => (rule.check program node).value

theorem value_findings (rules : List Rule) (program : Program) (nodes : List Node) :
    (findings rules program nodes).value = nodes.flatMap (foundAt rules program) := by
  simp [findings]
  rfl

theorem foundAt_of_kind (rules : List Rule) (program : Program) (h : node.kind ≠ .closure) :
    foundAt rules program node = [] := by
  rw [foundAt, List.flatMap_eq_nil_iff]
  rintro ⟨settings⟩ _
  simp [Rule.check, Closure.ofNode?, h]

theorem flatMap_closures (rules : List Rule) (program : Program) (nodes : List Node) :
    (nodes.filter (·.kind == .closure)).flatMap (foundAt rules program) =
      nodes.flatMap (foundAt rules program) := by
  induction nodes with
  | nil => rfl
  | cons node nodes ih =>
      by_cases hkind : node.kind = .closure
      · rw [List.filter_cons_of_pos (by simpa using hkind), List.flatMap_cons, List.flatMap_cons,
          ih]
      · rw [List.filter_cons_of_neg (by simpa using hkind), List.flatMap_cons,
          foundAt_of_kind rules program hkind, List.nil_append, ih]

/-- What a configuration finds in a closure: what the rule on unused captures finds, if it is enabled. -/
def foundIn (config : Config) (source : Source) (closure : Closure) : List Violation :=
  if config.unusedCaptureSettings.enabled then
    (UnusedCapture.check config.unusedCaptureSettings.severity (.ofSource source) closure).value
  else []

theorem foundAt_rules (config : Config) (source : Source) (node : Node) :
    foundAt config.rules (.ofSource source) node =
      (Closure.ofNode? node).toList.flatMap (foundIn config source) := by
  unfold foundAt Config.rules
  cases hclosure : Closure.ofNode? node with
  | none => split <;> simp [Rule.check, hclosure]
  | some closure =>
      rw [Option.toList_some, List.flatMap_singleton, foundIn]
      split
      · simp [Rule.check, hclosure]
      · rfl

theorem flatMap_foundAt_rules (config : Config) (source : Source) (nodes : List Node) :
    nodes.flatMap (foundAt config.rules (.ofSource source)) =
      (nodes.filterMap Closure.ofNode?).flatMap (foundIn config source) := by
  induction nodes with
  | nil => rfl
  | cons node nodes ih =>
      rw [List.flatMap_cons, foundAt_rules, ih]
      cases hclosure : Closure.ofNode? node with
      | none => rw [List.filterMap_cons_none hclosure, Option.toList_none, List.flatMap_nil,
          List.nil_append]
      | some closure => rw [List.filterMap_cons_some hclosure, Option.toList_some,
          List.flatMap_singleton, List.flatMap_cons]

theorem offset_bounds_of_mem_window {severity : Severity} {closure : Closure} {window : CharRange}
    {violation : Violation} (hwindow : closure.window? source = some window)
    (h : violation ∈ (UnusedCapture.check severity (.ofSource source) closure).value) :
    window.start ≤ violation.offset ∧ violation.offset < window.stop := by
  obtain ⟨own, hown, hbounds⟩ := UnusedCapture.offset_bounds_of_mem_check h
  cases hown.symm.trans hwindow
  exact hbounds

theorem mem_check_of_mem_foundIn {config : Config} {closure : Closure} {violation : Violation}
    (h : violation ∈ foundIn config source closure) :
    ∃ severity, violation ∈ (UnusedCapture.check severity (.ofSource source) closure).value := by
  unfold foundIn at h
  split at h
  · exact ⟨_, h⟩
  · cases h

theorem increasing_foundIn (config : Config) (source : Source) (closure : Closure) :
    (foundIn config source closure).Pairwise fun first second => first.offset < second.offset := by
  unfold foundIn
  split
  · exact UnusedCapture.increasing_check _ _ _
  · exact .nil

/-! ## Windows of closures -/

/-- The windows of the closures of a structure stand in the order of visits. -/
theorem pairwise_windows (source : Source) :
    ((forestPreorder (source.structureOf source.tokens)).filterMap Closure.ofNode?).Pairwise
      fun first second => ∃ window later, first.window? source = some window ∧
        second.window? source = some later ∧ window.stop ≤ later.start := by
  rw [List.pairwise_filterMap]
  refine (Structure.pairwise_precedes_ofTokens source.lineOfByte source.ordered_tokens).imp_of_mem ?_
  intro first second hfirst hsecond hprecedes before hbefore after hafter
  obtain ⟨-, window, -, hwindow⟩ :=
    Closure.fits_iff.mp (Closure.fits_of_mem_structureOf hfirst hbefore)
  obtain ⟨-, later, -, hlater⟩ :=
    Closure.fits_iff.mp (Closure.fits_of_mem_structureOf hsecond hafter)
  have hnested := (Structure.nested_of_mem_ofTokens _ source.ordered_tokens hfirst).1
  exact ⟨window, later, hwindow, hlater,
    Closure.windows_apart hprecedes hnested hbefore hafter hwindow hlater⟩

/-! ## Findings of a source text -/

theorem increasing_found (config : Config) (source : Source) :
    (((forestPreorder (source.structureOf source.tokens)).filterMap Closure.ofNode?).flatMap
      (foundIn config source)).Pairwise fun first second => first.offset < second.offset := by
  rw [List.pairwise_flatMap]
  refine ⟨fun closure _ => increasing_foundIn config source closure, ?_⟩
  refine (pairwise_windows source).imp ?_
  rintro first second ⟨window, later, hwindow, hlater, hapart⟩ found hfound other hother
  obtain ⟨_, hfound⟩ := mem_check_of_mem_foundIn hfound
  obtain ⟨_, hother⟩ := mem_check_of_mem_foundIn hother
  have hbefore := offset_bounds_of_mem_window hwindow hfound
  have hafter := offset_bounds_of_mem_window hlater hother
  omega

theorem value_source (rules : List Rule) (source : Source) :
    (Lint.source rules source).value =
      (((closures (source.structureOf source.tokens)).flatMap
        (foundAt rules (.ofSource source))).filter fun violation =>
          !(Table.ofSource source source.tokens).suppresses violation.location.line
            violation.ruleId).mergeSort fun first second => first.offset ≤ second.offset := by
  rw [closures, flatMap_closures, ← value_findings]
  rfl

theorem value_source_rules (config : Config) (source : Source) :
    (Lint.source config.rules source).value =
      (((forestPreorder (source.structureOf source.tokens)).filterMap Closure.ofNode?).flatMap
        (foundIn config source)).filter fun violation =>
          !(Table.ofSource source source.tokens).suppresses violation.location.line
            violation.ruleId := by
  have hincreasing := (increasing_found config source).filter fun violation =>
    !(Table.ofSource source source.tokens).suppresses violation.location.line violation.ruleId
  rw [value_source, closures_eq_filter, flatMap_closures, flatMap_foundAt_rules]
  exact List.mergeSort_of_pairwise (hincreasing.imp fun hlt => decide_eq_true (Nat.le_of_lt hlt))

theorem increasing_source (config : Config) (source : Source) :
    (Lint.source config.rules source).value.Pairwise fun first second =>
      first.offset < second.offset := by
  rw [value_source_rules]
  exact (increasing_found config source).filter _

/-- Linting loses no finding, repeats none and keeps their order.  Every closure of the structure is
checked, and what the check yields and nothing suppresses comes out in the order of visits, which is
that of the offsets, so sorting it changes nothing.  The windows of two closures are apart, and neither
holds a finding of the other. -/
theorem source_findings_exact (config : Config) (source : Source) :
    ((Lint.source config.rules source).value.Pairwise fun first second =>
      first.offset < second.offset) ∧
    (Lint.source config.rules source).value =
      (((forestPreorder (source.structureOf source.tokens)).filterMap Closure.ofNode?).flatMap
        fun closure =>
          if config.unusedCaptureSettings.enabled then
            (UnusedCapture.check config.unusedCaptureSettings.severity (.ofSource source)
              closure).value
          else []).filter (fun violation =>
            !(Table.ofSource source source.tokens).suppresses violation.location.line
              violation.ruleId) ∧
    (∀ node ∈ forestPreorder (source.structureOf source.tokens), node.kind = .closure →
      ∃ window, Closure.ofNode? node = some ⟨node.range, node.children.head?.map Node.start⟩ ∧
        Closure.window? source ⟨node.range, node.children.head?.map Node.start⟩ = some window ∧
        ∀ severity, ∀ violation ∈ (UnusedCapture.check severity (.ofSource source)
            ⟨node.range, node.children.head?.map Node.start⟩).value,
          window.start ≤ violation.offset ∧ violation.offset < window.stop) ∧
    ((forestPreorder (source.structureOf source.tokens)).filterMap Closure.ofNode?).Pairwise
      fun first second => ∃ window later, first.window? source = some window ∧
        second.window? source = some later ∧ window.stop ≤ later.start ∧
        ∀ severity,
          (∀ violation ∈ (UnusedCapture.check severity (.ofSource source) first).value,
            violation.offset < later.start) ∧
          ∀ violation ∈ (UnusedCapture.check severity (.ofSource source) second).value,
            window.stop ≤ violation.offset := by
  refine ⟨increasing_source config source, value_source_rules config source, ?_,
    (pairwise_windows source).imp ?_⟩
  · intro node hnode hkind
    have hclosure : Closure.ofNode? node = some _ := Closure.ofNode?_eq_some_iff.mpr ⟨hkind, rfl⟩
    obtain ⟨-, window, -, hwindow⟩ :=
      Closure.fits_iff.mp (Closure.fits_of_mem_structureOf hnode hclosure)
    exact ⟨window, hclosure, hwindow, fun _ _ => offset_bounds_of_mem_window hwindow⟩
  · rintro first second ⟨window, later, hwindow, hlater, hapart⟩
    refine ⟨window, later, hwindow, hlater, hapart, fun severity => ⟨?_, ?_⟩⟩
    · intro violation hviolation
      have hbounds := offset_bounds_of_mem_window hwindow hviolation
      omega
    · intro violation hviolation
      have hbounds := offset_bounds_of_mem_window hlater hviolation
      omega

end CaptureLint.Lint
