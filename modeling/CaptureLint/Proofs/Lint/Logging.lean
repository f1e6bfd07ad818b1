import CaptureLint.Proofs.Lint.Order

/-!
# What linting logs

The rule logs a line when it skips a closure whose ranges do not fit the source.  Tokens cut no
character, nodes start and end with tokens, and the first expression of a closure stands inside it:
so the closures of a structure always fit, and all that linting logs is about suppressions.
-/

namespace CaptureLint.Logged

theorem lines_mapM_loop {α β : Type} (f : α → Logged β) (items : List α) (done : List β) :
    (List.mapM.loop f items done).lines = items.flatMap fun item => (f item).lines := by
  induction items generalizing done with
  | nil => rfl
  | cons item items ih => simp [List.mapM.loop, ih]

@[simp] theorem lines_mapM {α β : Type} (f : α → Logged β) (items : List α) :
    (items.mapM f).lines = items.flatMap fun item => (f item).lines := by
  rw [List.mapM, lines_mapM_loop]

theorem mem_lines_forM {α : Type} {f : α → Logged PUnit} {items : List α} {line : LogLine}
    (h : line ∈ (items.forM f).lines) : ∃ item ∈ items, line ∈ (f item).lines := by
  induction items with
  | nil => cases h
  | cons item items ih =>
      have hcons : ((item :: items).forM f).lines = (f item).lines ++ (items.forM f).lines := rfl
      rw [hcons, List.mem_append] at h
      rcases h with h | h
      · exact ⟨item, List.mem_cons_self, h⟩
      · obtain ⟨other, hother, hline⟩ := ih h
        exact ⟨other, List.mem_cons_of_mem _ hother, hline⟩

end CaptureLint.Logged

namespace CaptureLint.Lint

open Node Suppression

variable {rules : List Rule} {source : Source} {node : Node} {line : LogLine}

theorem exists_violations?_of_fits (severity : Severity) {closure : Closure}
    (hfits : closure.Fits source) :
    ∃ found, UnusedCapture.violations? severity (.ofSource source) closure = some found := by
  apply Option.ne_none_iff_exists'.mp
  intro hnone
  exact (UnusedCapture.violations?_eq_none_iff severity).mp hnone hfits

theorem lines_check_of_mem (severity : Severity) {closure : Closure}
    (hnode : node ∈ forestPreorder (source.structureOf source.tokens))
    (hclosure : Closure.ofNode? node = some closure) :
    (UnusedCapture.check severity (.ofSource source) closure).lines = [] := by
  have hfits := Closure.fits_of_mem_structureOf hnode hclosure
  obtain ⟨found, hfound⟩ := exists_violations?_of_fits severity hfits
  rw [UnusedCapture.check, hfound]
  rfl

theorem lines_findings (rules : List Rule) (source : Source) :
    (findings rules (.ofSource source) (visit (source.structureOf source.tokens))).lines = [] := by
  simp only [findings, Logged.lines_bind, Logged.lines_pure, List.append_nil, Logged.lines_mapM,
    List.flatMap_eq_nil_iff]
  rintro node hnode ⟨settings⟩ -
  rw [visit_eq_forestPreorder] at hnode
  unfold Rule.check
  cases hclosure : Closure.ofNode? node with
  | none => rfl
  | some closure => exact lines_check_of_mem settings.severity hnode hclosure

theorem channel_of_mem_reportSuppressions {table : Table}
    (h : line ∈ (reportSuppressions source table).lines) : line.channel = .lint := by
  have hunclosed : ∀ {text : Block → String},
      line ∈ (table.unclosed.forM fun block => Logged.log .warn .lint (text block)).lines →
        line.channel = .lint := by
    intro text h
    obtain ⟨block, -, hline⟩ := Logged.mem_lines_forM h
    rw [List.mem_singleton.mp hline]
  unfold reportSuppressions at h
  by_cases hsize : 0 < table.size
  · simp only [hsize, if_true, Logged.lines_bind, List.mem_append] at h
    rcases h with h | h
    · rw [List.mem_singleton.mp h]
    · exact hunclosed h
  · simp only [hsize, if_false] at h
    exact hunclosed h

theorem lines_source (rules : List Rule) (source : Source) :
    (Lint.source rules source).lines =
      (reportSuppressions source (Table.ofSource source source.tokens)).lines := by
  have hfindings := lines_findings rules source
  show (reportSuppressions source (Table.ofSource source source.tokens)).lines ++
    ((findings rules (.ofSource source) (visit (source.structureOf source.tokens))).lines ++ []) = _
  rw [hfindings, List.append_nil, List.append_nil]

/-- Linting a source text skips no closure.  Both ranges of every closure of its structure convert,
so the rule comes to an answer at each of them, and the log has no line from the rule. -/
theorem structure_never_skipped (rules : List Rule) (source : Source) :
    (∀ node ∈ closures (Program.ofSource source).forest, ∃ closure whole window,
      Closure.ofNode? node = some closure ∧
        source.toCharRange? closure.range = some whole ∧
        closure.window? source = some window ∧
        ∀ severity, ∃ found,
          UnusedCapture.violations? severity (.ofSource source) closure = some found) ∧
    ∀ line ∈ (Lint.source rules source).lines, line.channel ≠ .rule := by
  constructor
  · intro node hnode
    obtain ⟨hmem, hkind⟩ := mem_closures.mp hnode
    have hclosure : Closure.ofNode? node = some _ := Closure.ofNode?_eq_some_iff.mpr ⟨hkind, rfl⟩
    have hfits := Closure.fits_of_mem_structureOf hmem hclosure
    obtain ⟨whole, window, hwhole, hwindow⟩ := Closure.fits_iff.mp hfits
    exact ⟨_, whole, window, hclosure, hwhole, hwindow, fun severity =>
      exists_violations?_of_fits severity hfits⟩
  · intro line hline
    rw [lines_source] at hline
    rw [channel_of_mem_reportSuppressions hline]
    decide

end CaptureLint.Lint
