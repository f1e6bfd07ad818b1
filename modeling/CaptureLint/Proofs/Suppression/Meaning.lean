import CaptureLint.Proofs.Suppression.Pairing
import CaptureLint.Proofs.Token.Comment

/-!
# What suppression directives mean

The table of a source text says of every line and every rule what the directives say: blocks cover
the lines between a start and the end that closes it, and single directives cover their own line or
the next one.  Directives stand on lines of their own, so none replaces another one.
-/

namespace CaptureLint.Suppression

variable {directives : List (Nat × Directive)} {source : Source}

/-! ## The lines of directives -/

theorem eq_append_of_after? {lead text rest : List Char} (h : after? lead text = some rest) :
    text = lead ++ rest := by
  fun_induction after? lead text with
  | case1 text => exact Option.some.inj h
  | case2 c lead text ih => rw [ih h, List.cons_append]
  | case3 c lead d text hne => cases h
  | case4 c lead => cases h

theorem eq_slashes_of_ofComment? {comment : List Char} {directive : Directive}
    (h : Directive.ofComment? comment = some directive) :
    ∃ rest, comment = '/' :: '/' :: rest := by
  simp only [Directive.ofComment?, Option.bind_eq_bind, Option.bind_eq_some_iff] at h
  obtain ⟨body, hbody, -⟩ := h
  simp only [commentBody?, Option.bind_eq_bind, Option.bind_eq_some_iff] at hbody
  obtain ⟨rest, hrest, -⟩ := hbody
  have hsplit := List.takeWhile_append_dropWhile (p := Text.isBlank) (l := comment.reverse)
  have hcomment : comment =
      Text.trimEnd comment ++ (comment.reverse.takeWhile Text.isBlank).reverse := by
    rw [Text.trimEnd, ← List.reverse_append, hsplit, List.reverse_reverse]
  rw [eq_append_of_after? hrest] at hcomment
  exact ⟨_, hcomment⟩

def Directive.ofToken? (token : Token) : Option Directive :=
  if token.kind = .comment then ofComment? token.text else none

theorem directives_eq_filterMap (source : Source) (tokens : List Token) :
    Suppression.directives source tokens = tokens.filterMap fun token =>
      (Directive.ofToken? token).map (source.lineOfByte token.start, ·) := by
  unfold Suppression.directives Directive.ofToken?
  apply congrArg (List.filterMap · tokens)
  funext token
  by_cases hkind : token.kind = .comment
  · simp only [if_pos hkind]
    cases Directive.ofComment? token.text <;> rfl
  · simp only [if_neg hkind]
    rfl

theorem directives_eq_filterMap_comments (source : Source) (tokens : List Token) :
    Suppression.directives source tokens =
      (tokens.filter (·.kind == .comment)).filterMap fun token =>
        (Directive.ofComment? token.text).map (source.lineOfByte token.start, ·) := by
  rw [directives_eq_filterMap, List.filterMap_filter]
  apply congrArg (List.filterMap · tokens)
  funext token
  by_cases hkind : token.kind = .comment <;> simp [Directive.ofToken?, hkind]

theorem exists_line_of_mem_tokens {token : Token} (h : token ∈ source.tokens) :
    ∃ before after, source.chars = before ++ token.text ++ after ∧
      token.start = Source.bytesOf before ∧
      source.lineOfByte token.start = 1 + before.count '\n' := by
  obtain ⟨before, after, hchars, hstart⟩ := Source.exists_excerpt_of_mem_tokens h
  refine ⟨before, after, hchars, hstart, ?_⟩
  rw [List.append_assoc] at hchars
  rw [hstart, Source.lineOfByte_of_excerpt hchars]

theorem increasing_directives (source : Source) :
    (Suppression.directives source source.tokens).Pairwise fun first second =>
      first.1 < second.1 := by
  rw [Suppression.directives, List.pairwise_filterMap]
  refine source.ordered_tokens.apart.imp_of_mem ?_
  intro token later htoken hlater hle first hfirst second hsecond
  simp only [Option.bind_eq_bind, Option.ite_none_right_eq_some, Option.bind_eq_some_iff,
    Option.some.injEq] at hfirst hsecond
  obtain ⟨hkind, directive, hdirective, rfl⟩ := hfirst
  obtain ⟨-, directive', hdirective', rfl⟩ := hsecond
  obtain ⟨rest, htext⟩ := eq_slashes_of_ofComment? hdirective
  obtain ⟨rest', htext'⟩ := eq_slashes_of_ofComment? hdirective'
  exact Source.lineOfByte_lt_of_line_comment htoken hkind htext hlater htext' hle

theorem line_lt_of_lt {start stop line line' : Nat} {directive directive' : Directive}
    (h : directives.Pairwise fun first second => first.1 < second.1) (hlt : start < stop)
    (hstart : directives[start]? = some (line, directive))
    (hstop : directives[stop]? = some (line', directive')) : line < line' := by
  obtain ⟨hs, hstart⟩ := List.getElem?_eq_some_iff.mp hstart
  obtain ⟨ht, hstop⟩ := List.getElem?_eq_some_iff.mp hstop
  have hlines := List.pairwise_iff_getElem.mp h start stop hs ht hlt
  rw [hstart, hstop] at hlines
  exact hlines

/-! ## Single lines -/

def markOf? : Nat × Directive → Option LineMark
  | (line, .ignore .sameLine terms) => some ⟨line, false, terms⟩
  | (line, .ignore .nextLine terms) => some ⟨line, true, terms⟩
  | _ => none

theorem insert_eq_append {mark : LineMark} {marks : List LineMark}
    (h : ∀ other ∈ marks, other.line < mark.line) : LineMark.insert mark marks = marks ++ [mark] := by
  induction marks with
  | nil => rfl
  | cons other marks ih =>
      rw [LineMark.insert, if_pos (h other List.mem_cons_self),
        ih fun next hnext => h next (List.mem_cons_of_mem _ hnext), List.cons_append]

theorem marks_take (reading : Reading) {line : Nat} (directive : Directive)
    (h : ∀ mark ∈ reading.marks, mark.line < line) :
    (reading.take line directive).marks = reading.marks ++ (markOf? (line, directive)).toList := by
  rcases directive with ⟨_ | _ | _, terms⟩ | _
  · exact insert_eq_append h
  · exact insert_eq_append h
  · simp [Reading.take, markOf?]
  · unfold Reading.take
    cases reading.opened <;> simp [markOf?]

theorem line_of_markOf? {directive : Nat × Directive} {mark : LineMark}
    (h : markOf? directive = some mark) : mark.line = directive.1 := by
  rcases directive with ⟨line, ⟨_ | _ | _, terms⟩ | _⟩ <;> cases h <;> rfl

/-- No mark replaces another one. -/
theorem marks_takeAll (h : directives.Pairwise fun first second => first.1 < second.1) :
    (Reading.initial.takeAll directives).marks = directives.filterMap markOf? := by
  rw [← List.reverse_reverse directives] at h ⊢
  generalize directives.reverse = newestFirst at h ⊢
  induction newestFirst with
  | nil => rfl
  | cons directive earlier ih =>
      rw [List.reverse_cons, List.pairwise_append] at h
      rw [List.reverse_cons, Reading.takeAll_concat, marks_take, ih h.1, List.filterMap_append,
        List.filterMap_cons]
      · cases markOf? directive <;> rfl
      · intro mark hmark
        rw [ih h.1, List.mem_filterMap] at hmark
        obtain ⟨other, hother, hmark⟩ := hmark
        rw [line_of_markOf? hmark]
        exact h.2.2 other hother directive List.mem_cons_self

/-! ## Blocks -/

variable {closes : Nat → Nat → Prop} {place place' start stop : Nat} {first second block : Block}

theorem startAt?_eq_some_iff : startAt? directives place = some block ↔
    directives[place]? = some (block.startLine, .ignore .block block.terms) ∧
      block.endLine = none := by
  unfold startAt?
  split
  · rename_i line terms heq
    obtain ⟨startLine, endLine, blockTerms⟩ := block
    simp only [heq, Option.some.injEq, Block.mk.injEq, Prod.mk.injEq, Directive.ignore.injEq,
      true_and]
    constructor
    · rintro ⟨hline, hend, hterms⟩
      exact ⟨⟨hline, hterms⟩, hend.symm⟩
    · rintro ⟨⟨hline, hterms⟩, hend⟩
      exact ⟨hline, hend.symm, hterms⟩
  · rename_i hother
    constructor
    · intro h
      cases h
    · rintro ⟨heq, -⟩
      exact absurd heq (hother _ _)

theorem getElem?_of_endAt? {line : Nat} (h : endAt? directives place = some line) :
    directives[place]? = some (line, .endBlock) := by
  unfold endAt? at h
  split at h
  · rename_i other heq
    rw [heq, Option.some.inj h]
  · cases h

theorem blockAt?_eq_some_iff : blockAt? directives start stop = some block ↔
    ∃ opening last, startAt? directives start = some opening ∧ endAt? directives stop = some last ∧
      block = { opening with endLine := some last } := by
  simp only [blockAt?, Option.bind_eq_bind, Option.bind_eq_some_iff, Option.some.injEq]
  constructor
  · rintro ⟨opening, hopening, last, hlast, heq⟩
    exact ⟨opening, last, hopening, hlast, heq.symm⟩
  · rintro ⟨opening, last, hopening, hlast, heq⟩
    exact ⟨opening, hopening, last, hlast, heq.symm⟩

/-- The block that a start opens, up to the end that closes it if one does. -/
def Spans (directives : List (Nat × Directive)) (closes : Nat → Nat → Prop) (place : Nat)
    (block : Block) : Prop :=
  (∃ stop, closes place stop ∧ blockAt? directives place stop = some block) ∨
    (∀ stop, ¬ closes place stop) ∧ startAt? directives place = some block

namespace Block

/-- One of two blocks holds all lines of the other, or they have no line in common. -/
def Laminar (first second : Block) : Prop :=
  (∀ line, first.holds line = true → second.holds line = true) ∨
    (∀ line, second.holds line = true → first.holds line = true) ∨
    ∀ line, ¬ (first.holds line = true ∧ second.holds line = true)

theorem Laminar.symm (h : Laminar first second) : Laminar second first := by
  rcases h with h | h | h
  · exact .inr (.inl h)
  · exact .inl h
  · exact .inr (.inr fun line hline => h line ⟨hline.2, hline.1⟩)

theorem holds_iff {line : Nat} :
    block.holds line = true ↔ block.startLine ≤ line ∧ ∀ last ∈ block.endLine, line ≤ last := by
  simp [holds, Option.all_eq_true]

end Block

theorem getElem?_of_spans (h : Spans directives closes place block) :
    directives[place]? = some (block.startLine, .ignore .block block.terms) := by
  rcases h with ⟨stop, -, hblock⟩ | ⟨-, hblock⟩
  · obtain ⟨opening, last, hopening, -, rfl⟩ := blockAt?_eq_some_iff.mp hblock
    exact (startAt?_eq_some_iff.mp hopening).1
  · exact (startAt?_eq_some_iff.mp hblock).1

/-- Of two blocks, the one that starts later is closed earlier, unless it starts after the other. -/
theorem laminar_of_lt (hlines : directives.Pairwise fun first second => first.1 < second.1)
    (hpairing : Pairing directives closes) (hlt : place < place')
    (hfirst : Spans directives closes place first)
    (hsecond : Spans directives closes place' second) : first.Laminar second := by
  have hat := getElem?_of_spans hfirst
  have hat' := getElem?_of_spans hsecond
  have hstarts := line_lt_of_lt hlines hlt hat hat'
  rcases hfirst with ⟨stop, hcloses, hblock⟩ | ⟨-, hopen⟩
  · obtain ⟨opening, last, -, hlast, rfl⟩ := blockAt?_eq_some_iff.mp hblock
    have hend := getElem?_of_endAt? hlast
    rcases Nat.lt_trichotomy stop place' with hbefore | rfl | hafter
    · -- the first is closed before the second starts
      have hapart := line_lt_of_lt hlines hbefore hend hat'
      refine .inr (.inr fun line hline => ?_)
      have hle := (Block.holds_iff.mp hline.1).2 last rfl
      have hge := (Block.holds_iff.mp hline.2).1
      omega
    · rw [hend] at hat'
      cases hat'
    · -- the second is closed before the first
      have hsome : (startAt? directives place').isSome := by
        rw [startAt?, hat']
        rfl
      obtain ⟨earlier, hearlier, hcloses'⟩ :=
        ((hpairing place stop).mp hcloses).most_recent place' hlt hafter hsome
      rcases hsecond with ⟨stop', hstop', hblock'⟩ | ⟨hopen', -⟩
      · rw [hpairing.stop_unique hstop' hcloses'] at hblock'
        obtain ⟨opening', last', -, hlast', rfl⟩ := blockAt?_eq_some_iff.mp hblock'
        have hends := line_lt_of_lt hlines hearlier (getElem?_of_endAt? hlast') hend
        refine .inr (.inl fun line hline => ?_)
        have hge := (Block.holds_iff.mp hline).1
        have hle := (Block.holds_iff.mp hline).2 last' rfl
        refine Block.holds_iff.mpr ⟨by omega, ?_⟩
        rintro _ ⟨⟩
        omega
      · exact absurd hcloses' (hopen' earlier)
  · -- the first is never closed
    refine .inr (.inl fun line hline => ?_)
    have hge := (Block.holds_iff.mp hline).1
    refine Block.holds_iff.mpr ⟨by omega, ?_⟩
    rw [(startAt?_eq_some_iff.mp hopen).2]
    rintro _ ⟨⟩

theorem laminar_of_ne (hlines : directives.Pairwise fun first second => first.1 < second.1)
    (hpairing : Pairing directives closes) (hne : place ≠ place')
    (hfirst : Spans directives closes place first)
    (hsecond : Spans directives closes place' second) : first.Laminar second := by
  rcases Nat.lt_or_gt_of_ne hne with hlt | hgt
  · exact laminar_of_lt hlines hpairing hlt hfirst hsecond
  · exact (laminar_of_lt hlines hpairing hgt hsecond hfirst).symm

/-! ## The table -/

theorem pairwise_of_map_some {α β : Type} {read : α → Option β} {items : List α} {values : List β}
    {relation : β → β → Prop} (heq : items.map read = values.map some)
    (h : items.Pairwise fun first second => ∀ value ∈ read first, ∀ other ∈ read second,
      relation value other) : values.Pairwise relation := by
  have hmap : (items.map read).Pairwise fun first second =>
      ∀ value ∈ first, ∀ other ∈ second, relation value other := List.pairwise_map.mpr h
  rw [heq, List.pairwise_map] at hmap
  exact hmap.imp fun hvalues => hvalues _ rfl _ rfl

namespace Tracked

variable {reading : Reading} {opened : List Nat} {closed : List (Nat × Nat)}

theorem mem_closed_iff (h : Tracked directives reading opened closed) :
    block ∈ reading.closed ↔
      ∃ start stop, (start, stop) ∈ closed ∧ blockAt? directives start stop = some block := by
  have hmem : block ∈ reading.closed ↔ some block ∈ reading.closed.map some := by simp
  rw [hmem, ← h.closed_eq, List.mem_map, Prod.exists]

theorem mem_opened_iff (h : Tracked directives reading opened closed) :
    block ∈ reading.opened ↔
      ∃ start, (∀ stop, (start, stop) ∉ closed) ∧ startAt? directives start = some block := by
  have hmem : block ∈ reading.opened ↔ some block ∈ reading.opened.map some := by simp
  rw [hmem, ← h.opened_eq, List.mem_map]
  constructor
  · rintro ⟨start, hstart, hblock⟩
    exact ⟨start, ((h.mem_opened start).mp hstart).2, hblock⟩
  · rintro ⟨start, hopen, hblock⟩
    exact ⟨start, (h.mem_opened start).mpr ⟨by simp [hblock], hopen⟩, hblock⟩

theorem unclosed_eq (h : Tracked directives reading opened closed) :
    reading.table.unclosed = reading.opened.reverse := by
  rw [Table.unclosed, Reading.table, List.filter_append, List.filter_eq_nil_iff.mpr,
    List.filter_eq_self.mpr, List.nil_append]
  · intro block hblock
    obtain ⟨start, -, hstart⟩ := h.mem_opened_iff.mp (List.mem_reverse.mp hblock)
    rw [(startAt?_eq_some_iff.mp hstart).2]
    rfl
  · intro block hblock
    obtain ⟨start, stop, -, hpair⟩ := h.mem_closed_iff.mp (List.mem_reverse.mp hblock)
    obtain ⟨opening, last, -, -, rfl⟩ := blockAt?_eq_some_iff.mp hpair
    simp

theorem pairwise_laminar (h : Tracked directives reading opened closed)
    (hlines : directives.Pairwise fun first second => first.1 < second.1) :
    reading.table.blocks.Pairwise Block.Laminar := by
  have hlaminar : ∀ {place place' first second}, place ≠ place' →
      Spans directives (fun start stop => (start, stop) ∈ closed) place first →
      Spans directives (fun start stop => (start, stop) ∈ closed) place' second →
      first.Laminar second := fun hne => laminar_of_ne hlines h.pairing hne
  rw [Reading.table, List.pairwise_append, List.pairwise_reverse, List.pairwise_reverse]
  refine ⟨?_, ?_, ?_⟩
  · refine pairwise_of_map_some h.closed_eq (h.stops.imp_of_mem ?_)
    intro later earlier hlater hearlier hlt second hsecond first hfirst
    refine hlaminar ?_ (.inl ⟨_, hearlier, hfirst⟩) (.inl ⟨_, hlater, hsecond⟩)
    intro heq
    have hsame : (later.1, earlier.2) ∈ closed := by
      rw [← heq]
      exact hearlier
    have hstops := h.pairing.stop_unique hlater hsame
    omega
  · refine pairwise_of_map_some h.opened_eq (h.descending.imp_of_mem ?_)
    intro later earlier hlater hearlier hlt second hsecond first hfirst
    exact hlaminar (Nat.ne_of_lt hlt) (.inr ⟨((h.mem_opened _).mp hearlier).2, hfirst⟩)
      (.inr ⟨((h.mem_opened _).mp hlater).2, hsecond⟩)
  · intro first hfirst second hsecond
    obtain ⟨start, stop, hpair, hblock⟩ := h.mem_closed_iff.mp (List.mem_reverse.mp hfirst)
    obtain ⟨start', hopen, hblock'⟩ := h.mem_opened_iff.mp (List.mem_reverse.mp hsecond)
    refine hlaminar ?_ (.inl ⟨stop, hpair, hblock⟩) (.inr ⟨hopen, hblock'⟩)
    rintro rfl
    exact hopen stop hpair

end Tracked

/-! ## Counting -/

namespace Directive

def startsBlock : Directive → Bool
  | ignore .block _ => true
  | _ => false

end Directive

theorem length_blocks_take (reading : Reading) (line : Nat) (directive : Directive) :
    (reading.take line directive).table.blocks.length =
      reading.table.blocks.length + if directive.startsBlock then 1 else 0 := by
  rcases directive with ⟨_ | _ | _, terms⟩ | _
  · rfl
  · rfl
  · simp [Reading.take, Reading.table, Directive.startsBlock]
    omega
  · unfold Reading.take
    cases hopened : reading.opened with
    | nil => simp [Directive.startsBlock]
    | cons block blocks => simp [Reading.table, Directive.startsBlock, hopened]

theorem length_blocks_takeAll (reading : Reading) (directives : List (Nat × Directive)) :
    (reading.takeAll directives).table.blocks.length =
      reading.table.blocks.length + directives.countP (·.2.startsBlock) := by
  induction directives generalizing reading with
  | nil => rfl
  | cons directive rest ih =>
      rw [Reading.takeAll, ih, length_blocks_take, List.countP_cons]
      omega

theorem size_takeAll (h : directives.Pairwise fun first second => first.1 < second.1) :
    (Table.ofDirectives directives).size = directives.countP (·.2 ≠ .endBlock) := by
  have hmarks : directives.countP (fun directive => (markOf? directive).isSome) +
      directives.countP (·.2.startsBlock) = directives.countP (·.2 ≠ .endBlock) := by
    clear h
    induction directives with
    | nil => rfl
    | cons directive rest ih =>
        have hone : (if (markOf? directive).isSome then 1 else 0) +
            (if directive.2.startsBlock then 1 else 0) =
              if decide (directive.2 ≠ .endBlock) then 1 else 0 := by
          rcases directive with ⟨line, ⟨_ | _ | _, terms⟩ | _⟩ <;> rfl
        rw [List.countP_cons, List.countP_cons, List.countP_cons]
        omega
  have hblocks := length_blocks_takeAll .initial directives
  have hinitial : Reading.initial.table.blocks.length = 0 := rfl
  have hlength : (Table.ofDirectives directives).marks.length =
      directives.countP fun directive => (markOf? directive).isSome := by
    rw [← List.length_filterMap_eq_countP, ← marks_takeAll h]
    rfl
  rw [Table.size, hlength, Table.ofDirectives, hblocks]
  omega

/-! ## The meaning of the directives -/

/-- A list of rules names a rule when it is empty or holds a star or the rule. -/
def Terms.Names (terms : Terms) (ruleId : String) : Prop :=
  terms.ruleIds = [] ∨ "*" ∈ terms.ruleIds ∨ ruleId ∈ terms.ruleIds

theorem Terms.covers_iff {terms : Terms} {ruleId : String} :
    terms.covers ruleId = true ↔ terms.Names ruleId := by
  simp only [covers, Names, Bool.or_eq_true, List.isEmpty_iff, List.any_eq_true, beq_iff_eq]
  grind

theorem mem_marks_iff {mark : LineMark} : mark ∈ directives.filterMap markOf? ↔
    (mark.line, .ignore (if mark.nextLine then .nextLine else .sameLine) mark.terms) ∈
      directives := by
  rw [List.mem_filterMap]
  constructor
  · rintro ⟨⟨line, ⟨_ | _ | _, terms⟩ | _⟩, hmem, hmark⟩ <;> cases hmark <;> exact hmem
  · intro hmem
    refine ⟨_, hmem, ?_⟩
    obtain ⟨line, nextLine, terms⟩ := mark
    cases nextLine <;> rfl

theorem any_blocks_iff {opened : List Nat} {closed : List (Nat × Nat)} {reading : Reading}
    {line : Nat} {ruleId : String} (h : Tracked directives reading opened closed) :
    (reading.table.blocks.any fun block => block.holds line && block.terms.covers ruleId) = true ↔
      (∃ start stop block last, (start, stop) ∈ closed ∧ startAt? directives start = some block ∧
        endAt? directives stop = some last ∧ block.startLine ≤ line ∧ line ≤ last ∧
          block.terms.Names ruleId) ∨
      ∃ start block, startAt? directives start = some block ∧ (∀ stop, (start, stop) ∉ closed) ∧
        block.startLine ≤ line ∧ block.terms.Names ruleId := by
  simp only [List.any_eq_true, Bool.and_eq_true, Terms.covers_iff, Block.holds_iff, Reading.table,
    List.mem_append, List.mem_reverse, h.mem_closed_iff, h.mem_opened_iff]
  constructor
  · rintro ⟨block, ⟨start, stop, hpair, hblock⟩ | ⟨start, hopen, hblock⟩, ⟨hge, hle⟩, hnames⟩
    · obtain ⟨opening, last, hopening, hlast, rfl⟩ := blockAt?_eq_some_iff.mp hblock
      exact .inl ⟨start, stop, opening, last, hpair, hopening, hlast, hge, hle last rfl, hnames⟩
    · exact .inr ⟨start, block, hblock, hopen, hge, hnames⟩
  · rintro (⟨start, stop, opening, last, hpair, hopening, hlast, hge, hle, hnames⟩ |
      ⟨start, block, hblock, hopen, hge, hnames⟩)
    · refine ⟨{ opening with endLine := some last }, .inl ⟨start, stop, hpair, ?_⟩, ⟨hge, ?_⟩, hnames⟩
      · exact blockAt?_eq_some_iff.mpr ⟨opening, last, hopening, hlast, rfl⟩
      · rintro _ ⟨⟩
        exact hle
    · refine ⟨block, .inr ⟨start, hopen, hblock⟩, ⟨hge, ?_⟩, hnames⟩
      rw [(startAt?_eq_some_iff.mp hblock).2]
      rintro _ ⟨⟩

theorem any_marks_iff {line : Nat} {ruleId : String} :
    ((directives.filterMap markOf?).any fun mark =>
      mark.target == line && mark.terms.covers ruleId) = true ↔
      (∃ terms, (line, .ignore .sameLine terms) ∈ directives ∧ terms.Names ruleId) ∨
      ∃ previous terms, (previous, .ignore .nextLine terms) ∈ directives ∧ line = previous + 1 ∧
        terms.Names ruleId := by
  simp only [List.any_eq_true, Bool.and_eq_true, beq_iff_eq, Terms.covers_iff, mem_marks_iff]
  constructor
  · rintro ⟨⟨other, nextLine, terms⟩, hmem, htarget, hnames⟩
    cases nextLine with
    | false =>
        obtain rfl : other = line := htarget
        exact .inl ⟨terms, hmem, hnames⟩
    | true => exact .inr ⟨other, terms, hmem, htarget.symm, hnames⟩
  · rintro (⟨terms, hmem, hnames⟩ | ⟨previous, terms, hmem, rfl, hnames⟩)
    · exact ⟨⟨line, false, terms⟩, hmem, rfl, hnames⟩
    · exact ⟨⟨previous, true, terms⟩, hmem, rfl, hnames⟩

/-- The directives of a source text say what its table says.  They are its comments that can be read as
directives, in their order, each with the line on which it starts.  There is one way to let every end
close the most recent start that is still open, and a rule is suppressed on a line by a block between
two such places, by a block that nothing closes, or by a directive for that line. -/
theorem table_meaning (source : Source) :
    ∃ (directives : List (Nat × Directive)) (closes : Nat → Nat → Prop),
      directives = ((source.tokens.filter (·.kind == .comment)).filterMap fun token =>
        (Directive.ofComment? token.text).map (source.lineOfByte token.start, ·)) ∧
      (∀ token ∈ source.tokens, ∃ before after, source.chars = before ++ token.text ++ after ∧
        token.start = Source.bytesOf before ∧
        source.lineOfByte token.start = 1 + before.count '\n') ∧
      Pairing directives closes ∧
      (∀ other, Pairing directives other → other = closes) ∧
      (∀ line ruleId, (Table.ofSource source source.tokens).suppresses line ruleId = true ↔
        (∃ start stop block last, closes start stop ∧ startAt? directives start = some block ∧
          endAt? directives stop = some last ∧ block.startLine ≤ line ∧ line ≤ last ∧
          block.terms.Names ruleId) ∨
        (∃ start block, startAt? directives start = some block ∧ (∀ stop, ¬ closes start stop) ∧
          block.startLine ≤ line ∧ block.terms.Names ruleId) ∨
        (∃ terms, (line, .ignore .sameLine terms) ∈ directives ∧ terms.Names ruleId) ∨
        ∃ previous terms, (previous, .ignore .nextLine terms) ∈ directives ∧ line = previous + 1 ∧
          terms.Names ruleId) ∧
      (∃ places : List Nat, places.Pairwise (· < ·) ∧
        (∀ place, place ∈ places ↔
          (startAt? directives place).isSome ∧ ∀ stop, ¬ closes place stop) ∧
        places.map (startAt? directives) =
          (Table.ofSource source source.tokens).unclosed.map some) ∧
      (Table.ofSource source source.tokens).blocks.length = directives.countP (·.2.startsBlock) ∧
      (Table.ofSource source source.tokens).blocks.Pairwise Block.Laminar ∧
      (Table.ofSource source source.tokens).size = directives.countP (·.2 ≠ .endBlock) := by
  have hlines := increasing_directives source
  obtain ⟨opened, closed, h⟩ := exists_tracked (Suppression.directives source source.tokens)
  refine ⟨_, fun start stop => (start, stop) ∈ closed,
    directives_eq_filterMap_comments source source.tokens, fun token => exists_line_of_mem_tokens,
    h.pairing, fun other hother => hother.unique h.pairing, ?_, ?_, ?_, h.pairwise_laminar hlines,
    size_takeAll hlines⟩
  · intro line ruleId
    have hmarks : (Table.ofSource source source.tokens).marks =
        (Suppression.directives source source.tokens).filterMap markOf? := marks_takeAll hlines
    rw [Table.suppresses, Bool.or_eq_true, hmarks, any_marks_iff, Table.ofSource,
      Table.ofDirectives, any_blocks_iff h, or_assoc]
  · refine ⟨opened.reverse, List.pairwise_reverse.mpr h.descending, ?_, ?_⟩
    · intro place
      rw [List.mem_reverse]
      exact h.mem_opened place
    · rw [Table.ofSource, Table.ofDirectives, h.unclosed_eq, List.map_reverse, h.opened_eq,
        List.map_reverse]
  · rw [Table.ofSource, Table.ofDirectives, length_blocks_takeAll]
    exact Nat.zero_add _

end CaptureLint.Suppression
