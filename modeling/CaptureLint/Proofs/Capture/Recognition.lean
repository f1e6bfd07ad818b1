import CaptureLint.Proofs.Rule.Window
import CaptureLint.Proofs.Structure.Heads

/-!
# Capture lists in text and in tokens

A capture list is recognised twice: the builder finds it among the tokens after a brace and passes
over it, and the rule finds it in the characters of a window.  The window of a closure ends where
the first expression inside starts, and that is how the two agree: a `[` that the builder has not
passed over starts an expression, so the window ends before it.
-/

namespace CaptureLint.Source

open Structure Capture

variable {source : Source} {brace opening closing : Token} {after : List Token}

def BraceAt (source : Source) (start : Nat) (brace : Token) (after : List Token) : Prop :=
  ∃ earlier, source.tokens.filter (!·.kind.isTrivia) = earlier ++ brace :: after ∧
    Bracket.opened? brace = some .curly ∧ brace.start = start

namespace BraceAt

variable {start : Nat}

theorem mem_tokens (h : source.BraceAt start brace after) {token : Token}
    (htoken : token ∈ brace :: after) : token ∈ source.tokens := by
  obtain ⟨earlier, hsplit, -⟩ := h
  have hmem : token ∈ source.tokens.filter (!·.kind.isTrivia) := by
    rw [hsplit]
    exact List.mem_append_right _ htoken
  exact (List.mem_filter.mp hmem).1

theorem pairwise (h : source.BraceAt start brace after) :
    (brace :: after).Pairwise fun first second => first.stop ≤ second.start := by
  obtain ⟨earlier, hsplit, -⟩ := h
  have hordered := (source.ordered_tokens.filter (!·.kind.isTrivia)).apart
  rw [hsplit, List.pairwise_append] at hordered
  exact hordered.2.1

theorem text (h : source.BraceAt start brace after) :
    brace.kind = .punctuation ∧ brace.text = ['\x7b'] := by
  obtain ⟨-, -, hcurly, -⟩ := h
  exact Bracket.opened?_eq_some_iff.mp hcurly

end BraceAt

/-! ## From characters to tokens -/

theorem first_eq_nil_of_spelled {window first second group tail post rest : List Char}
    (hspelled : Spelled window first second group tail) (hbrace : '\x7b' :: post = window ++ rest) :
    first = [] := by
  cases first with
  | nil => rfl
  | cons c first =>
      have hblank := hspelled.first_blank
      rw [hspelled.split] at hbrace
      rw [← (List.cons.inj hbrace).1] at hblank
      simp [Text.allBlank, show Text.isBlank '\x7b' = false by decide] at hblank

/-- When a window that starts at a brace opens with a capture list, the token after the brace is the
opening bracket, and it stands in the window. -/
theorem opening_of_listing? (bytes : ByteRange) {window : CharRange} {list : Listing}
    (hbrace : source.BraceAt bytes.start brace after)
    (hwindow : source.toCharRange? bytes = some window)
    (hlist : listing? source window = some list) :
    ∃ opening ∈ after.head?,
      Bracket.opened? opening = some .square ∧ opening.stop ≤ bytes.stop := by
  obtain ⟨before, text, rest, first, second, tail, hchars, rfl, hspelled, -⟩ :=
    listing?_eq_some_iff.mp hlist
  obtain ⟨before', text', rest', hchars', rfl, hsame⟩ := exists_excerpt_of_toCharRange? hwindow
  rw [CharRange.mk.injEq] at hsame
  rw [List.append_assoc] at hchars hchars'
  obtain ⟨rfl, hrest⟩ := List.append_inj (hchars.symm.trans hchars') hsame.1
  obtain ⟨rfl, -⟩ := List.append_inj hrest hsame.2
  obtain ⟨hkind, htext⟩ := hbrace.text
  obtain ⟨pre, post, hexcerpt, hpre⟩ := exists_excerpt_of_mem_tokens (hbrace.mem_tokens List.mem_cons_self)
  obtain ⟨earlier, hsplit, hcurly, hstart⟩ := hbrace
  rw [List.append_assoc] at hexcerpt
  obtain ⟨rfl, hpost⟩ := excerpt_unique hexcerpt hchars (by rw [← hpre, hstart])
  rw [htext] at hpost
  obtain rfl := first_eq_nil_of_spelled hspelled hpost
  have hwindowText := hspelled.split
  have hchars'' : source.chars =
      pre ++ brace.text ++ (second ++ '[' :: (list.text ++ ']' :: (tail ++ rest))) := by
    rw [hchars, hwindowText, htext]
    simp
  -- comments may stand before the brace but not between it and the bracket
  obtain ⟨left, right, htokens, -, hafter⟩ := List.filter_eq_append_iff.mp hsplit
  obtain ⟨comments, right, rfl, -, -, rfl⟩ := List.filter_eq_cons_iff.mp hafter
  rw [← List.append_assoc] at htokens
  obtain ⟨later, rfl⟩ :=
    tokens_square_after htokens (by simp [hkind]) hchars'' hpre hspelled.second_blank
  refine ⟨_, rfl, Bracket.opened?_eq_some_iff.mpr ⟨rfl, rfl⟩, ?_⟩
  simp only [Token.stop_eq, hpre, htext, ByteRange.stop, hwindowText, bytesOf_append, bytesOf_cons,
    bytesOf_nil, List.nil_append]
  omega

/-! ## From tokens to characters -/

/-- A brace, a `[` and a `]` of a source that stand in this order before a boundary. -/
structure Bracketed (source : Source) (brace opening closing : Token) (stop : Nat) : Prop where
  brace_mem : brace ∈ source.tokens
  opening_mem : opening ∈ source.tokens
  closing_mem : closing ∈ source.tokens
  brace_text : brace.text = ['\x7b']
  opening_text : opening.text = ['[']
  closing_text : closing.text = [']']
  brace_le : brace.stop ≤ opening.start
  opening_le : opening.stop ≤ closing.start
  closing_le : closing.stop ≤ stop
  boundary : source.IsBoundary stop

namespace Bracketed

variable {stop : Nat}

theorem split (h : source.Bracketed brace opening closing stop) :
    ∃ before blanks group tail rest,
      source.chars = before ++ ('\x7b' :: (blanks ++ '[' :: (group ++ ']' :: tail))) ++ rest ∧
      brace.start = bytesOf before ∧ opening.start = brace.stop + bytesOf blanks ∧
      closing.start = opening.stop + bytesOf group ∧ stop = closing.stop + bytesOf tail := by
  obtain ⟨before, post, hchars, hstart⟩ := exists_excerpt_of_mem_tokens h.brace_mem
  obtain ⟨before', post', hchars', hstart'⟩ := exists_excerpt_of_mem_tokens h.opening_mem
  obtain ⟨before'', post'', hchars'', hstart''⟩ := exists_excerpt_of_mem_tokens h.closing_mem
  obtain ⟨all, rest, hall, rfl⟩ := h.boundary
  have hfirst := h.brace_le
  have hsecond := h.opening_le
  have hthird := h.closing_le
  rw [Token.stop_eq, hstart, ← bytesOf_append, hstart'] at hfirst
  rw [Token.stop_eq, hstart', ← bytesOf_append, hstart''] at hsecond
  rw [Token.stop_eq, hstart'', ← bytesOf_append] at hthird
  obtain ⟨blanks, rfl, -⟩ :=
    excerpt_of_le hchars (hchars'.trans (List.append_assoc _ _ _)) hfirst
  obtain ⟨group, rfl, -⟩ :=
    excerpt_of_le hchars' (hchars''.trans (List.append_assoc _ _ _)) hsecond
  obtain ⟨tail, rfl, -⟩ := excerpt_of_le hchars'' hall hthird
  refine ⟨before, blanks, group, tail, rest, ?_, hstart, ?_, ?_, ?_⟩
  · rw [hall, h.brace_text, h.opening_text, h.closing_text]
    simp
  · rw [hstart', Token.stop_eq, hstart, bytesOf_append, bytesOf_append]
  · rw [hstart'', Token.stop_eq, hstart', bytesOf_append, bytesOf_append]
  · rw [Token.stop_eq, hstart'', bytesOf_append, bytesOf_append]

/-- The group between the square brackets is read back from the window between the brace and the
boundary, unless something else stands in front of it or the group is none. -/
theorem listing? (h : source.Bracketed brace opening closing stop) :
    ∃ blanks group, source.substringOfBytes? (.between brace.stop opening.start) = some blanks ∧
      source.substringOfBytes? (.between opening.stop closing.start) = some group ∧
      (Text.allBlank blanks = true → Text.allBlank group = false → '[' ∉ group → ']' ∉ group →
        ∀ window, source.toCharRange? (.between brace.start stop) = some window →
          ∃ range, source.toCharRange? (.between opening.stop closing.start) = some range ∧
            Capture.listing? source window = some ⟨group, range⟩) := by
  obtain ⟨before, blanks, group, tail, rest, hchars, hstart, hstart', hstart'', rfl⟩ := h.split
  have hblanks : source.chars =
      (before ++ ['\x7b']) ++ blanks ++ ('[' :: (group ++ ']' :: tail) ++ rest) := by
    simp [hchars]
  have hgroup : source.chars =
      (before ++ '\x7b' :: (blanks ++ ['['])) ++ group ++ (']' :: tail ++ rest) := by
    simp [hchars]
  have hblanksRange : ByteRange.between brace.stop opening.start =
      ⟨bytesOf (before ++ ['\x7b']), bytesOf blanks⟩ := by
    simp [ByteRange.between, hstart', Token.stop_eq, hstart, h.brace_text, bytesOf_append]
  have hgroupRange : ByteRange.between opening.stop closing.start =
      ⟨bytesOf (before ++ '\x7b' :: (blanks ++ ['['])), bytesOf group⟩ := by
    simp only [ByteRange.between, ByteRange.mk.injEq, hstart'', hstart', Token.stop_eq, hstart,
      h.brace_text, h.opening_text, bytesOf_append, bytesOf_cons, bytesOf_nil]
    omega
  have hwindowRange : ByteRange.between brace.start (closing.stop + bytesOf tail) =
      ⟨bytesOf before, bytesOf ('\x7b' :: (blanks ++ '[' :: (group ++ ']' :: tail)))⟩ := by
    simp only [ByteRange.between, ByteRange.mk.injEq, hstart'', hstart', Token.stop_eq, hstart,
      h.brace_text, h.opening_text, h.closing_text, bytesOf_append, bytesOf_cons, bytesOf_nil,
      true_and]
    omega
  refine ⟨blanks, group, ?_, ?_, fun hblank hnonblank hopen hclose window hwindow => ?_⟩
  · rw [hblanksRange, substringOfBytes?_of_excerpt hblanks]
  · rw [hgroupRange, substringOfBytes?_of_excerpt hgroup]
  · rw [hwindowRange, toCharRange?_of_excerpt hchars] at hwindow
    refine ⟨_, by rw [hgroupRange, toCharRange?_of_excerpt hgroup], ?_⟩
    refine listing?_eq_some_iff.mpr ⟨before, _, rest, [], blanks, tail, hchars,
      (Option.some.inj hwindow).symm, ⟨rfl, rfl, hblank, hnonblank, hopen, hclose⟩, ?_⟩
    simp only [List.length_append, List.length_cons, List.length_nil, CharRange.mk.injEq, and_true]
    omega

end Bracketed

/-! ## Agreement -/

/-- The text of a window and the tokens of the structure agree on what a capture list is.  A list
read from the window of a closure is one that the builder has passed over, and the bracket in front
of it starts no expression.  Conversely a list that the builder has passed over is read from the
window, unless comments stand in front of it, it is blank, or it holds further square brackets. -/
theorem recognizers_agree (source : Source) {node : Node}
    (hnode : node ∈ Node.closures (source.structureOf source.tokens)) :
    ∃ closure window brace after, Closure.ofNode? node = some closure ∧
      closure.window? source = some window ∧ source.BraceAt node.start brace after ∧
      ((listing? source window).isSome → (captureListLength? after).isSome ∧
        ∀ opening ∈ after.head?, ∀ child ∈ node.children, opening.start < child.start) ∧
      ∀ length, captureListLength? after = some length →
        ∃ opening closing blanks group, after[0]? = some opening ∧
          after[length - 1]? = some closing ∧ opening.text = ['['] ∧ closing.text = [']'] ∧
          source.substringOfBytes? (.between brace.stop opening.start) = some blanks ∧
          source.substringOfBytes? (.between opening.stop closing.start) = some group ∧
          (Text.allBlank blanks = true → Text.allBlank group = false → '[' ∉ group → ']' ∉ group →
            ∃ range, source.toCharRange? (.between opening.stop closing.start) = some range ∧
              listing? source window = some ⟨group, range⟩) := by
  obtain ⟨hmem, hkind⟩ := Node.mem_closures.mp hnode
  have hnested := (nested_of_mem_ofTokens _ source.ordered_tokens hmem).1
  obtain ⟨earlier, brace, after, hsplit, hcurly, hstart, hhead⟩ :=
    wellHeaded_of_mem_ofTokens _ source.ordered_tokens hmem hkind
  have hbrace : source.BraceAt node.start brace after := ⟨earlier, hsplit, hcurly, hstart⟩
  have hclosure : Closure.ofNode? node = some _ := Closure.ofNode?_eq_some_iff.mpr ⟨hkind, rfl⟩
  obtain ⟨-, window, -, hwindow⟩ :=
    Closure.fits_iff.mp (Closure.fits_of_mem_structureOf hmem hclosure)
  have hbytes := (Closure.window?_eq_some_iff.mp hwindow).1
  rw [Closure.windowBytes_of_node hclosure] at hbytes
  refine ⟨_, window, brace, after, hclosure, hwindow, hbrace, ?_, ?_⟩
  · intro hsome
    obtain ⟨list, hlist⟩ := Option.isSome_iff_exists.mp hsome
    obtain ⟨opening, hopening, hsquare, hstop⟩ := opening_of_listing?
      (.between node.start node.headStop) hbrace hbytes hlist
    rw [ByteRange.stop_between (Node.start_le_headStop hnested)] at hstop
    have hlt := source.ordered_tokens.nonempty opening
      (hbrace.mem_tokens (List.mem_cons_of_mem _ (List.mem_of_head? hopening)))
    refine ⟨?_, ?_⟩
    · -- a bracket that starts no capture list would end the window
      cases hlength : captureListLength? after with
      | some length => rfl
      | none =>
          have hfirst := hhead.literal hlength opening hopening hsquare
          rw [Node.headStop, hfirst, Option.getD_some] at hstop
          omega
    · intro other hother child hchild
      cases hother.symm.trans hopening
      have hle := Node.headStop_le_start hnested hchild
      omega
  · intro length hlength
    obtain ⟨opening, inner, closing, rest, rfl, rfl, hopeningText, hclosed⟩ :=
      split_of_captureListLength? hlength
    obtain ⟨hfirst, hrest⟩ := List.pairwise_cons.mp hbrace.pairwise
    have hmemClosing : closing ∈ inner ++ closing :: rest := by simp
    have htaken : closing ∈ (opening :: (inner ++ closing :: rest)).take (inner.length + 2) := by
      simp [List.take_append]
    obtain ⟨hlimit, hchild⟩ := hhead.passed _ hlength closing htaken
    have hthird : closing.stop ≤ node.headStop := by
      rw [Node.headStop]
      cases hchildren : node.children.head?.map Node.start with
      | none => exact hlimit
      | some first => exact hchild first hchildren
    have hclosingText := (Bracket.closed?_eq_some_iff.mp hclosed).2
    have hbracketed : source.Bracketed brace opening closing node.headStop :=
      { brace_mem := hbrace.mem_tokens List.mem_cons_self
        opening_mem := hbrace.mem_tokens (List.mem_cons_of_mem _ List.mem_cons_self)
        closing_mem := hbrace.mem_tokens
          (List.mem_cons_of_mem _ (List.mem_cons_of_mem _ hmemClosing))
        brace_text := hbrace.text.2
        opening_text := hopeningText
        closing_text := hclosingText
        brace_le := hfirst opening List.mem_cons_self
        opening_le := (List.pairwise_cons.mp hrest).1 closing hmemClosing
        closing_le := hthird
        boundary := Closure.isBoundary_headStop hmem }
    obtain ⟨blanks, group, hblanks, hgroup, hlist⟩ := hbracketed.listing?
    refine ⟨opening, closing, blanks, group, rfl, by simp, hopeningText, hclosingText, hblanks,
      hgroup, fun hblank hnonblank hopen hclose => ?_⟩
    exact hlist hblank hnonblank hopen hclose window (by rw [hstart]; exact hbytes)

theorem recognizers_agree_on_capture :
    ∃ source : Source, source.chars = "\x7b [a] in b \x7d".toList ∧
      ∃ node ∈ Node.closures (source.structureOf source.tokens), ∃ brace after,
        source.BraceAt node.start brace after ∧ (captureListLength? after).isSome ∧
          Capture.listing? source ⟨0, 12⟩ = some ⟨['a'], ⟨3, 1⟩⟩ := by
  refine ⟨⟨none, "\x7b [a] in b \x7d".toList⟩, rfl, ?_⟩
  have hclosures : (Node.closures ((Source.mk none "\x7b [a] in b \x7d".toList).structureOf
      (Source.mk none "\x7b [a] in b \x7d".toList).tokens)).map Closure.ofNode? =
        [some ⟨⟨0, 12⟩, none⟩] := by decide +kernel
  obtain ⟨node, hnode, hclosure⟩ := List.mem_map.mp (hclosures ▸ List.mem_singleton_self _)
  obtain ⟨closure, window, brace, after, hof, hwindow, hbrace, hagree, -⟩ :=
    recognizers_agree _ hnode
  have hspan : Closure.window? (Source.mk none "\x7b [a] in b \x7d".toList)
      ⟨⟨0, 12⟩, none⟩ = some ⟨0, 12⟩ := by decide +kernel
  have hlist : Capture.listing? (Source.mk none "\x7b [a] in b \x7d".toList) ⟨0, 12⟩ =
      some ⟨['a'], ⟨3, 1⟩⟩ := by decide +kernel
  cases hof.symm.trans hclosure
  cases hwindow.symm.trans hspan
  exact ⟨node, hnode, brace, after, hbrace, (hagree (by rw [hlist]; rfl)).1, hlist⟩

end CaptureLint.Source
