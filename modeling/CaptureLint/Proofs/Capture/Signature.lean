import CaptureLint.Proofs.Capture.Recognition
import CaptureLint.Proofs.Structure.Balance

/-!
# The keyword behind a capture list

A group in square brackets after the brace of a closure is a capture list when the keyword `in`
follows it.  The scan for this keyword is stopped by curly brackets, semicolons and closing brackets,
and by nothing else: it does not ask whose `in` it has reached.  So a list literal in front of a
`for` loop is passed over like a capture list, and the rule reports what the closure does not use of
it.
-/

namespace CaptureLint.Structure

/-- The tokens in front of the `in` that the scan of `inFollows` reaches, `none` if it is stopped. -/
def beforeIn? : Nat → List Token → Option (List Token)
  | _, [] => none
  | depth, token :: after =>
      if token.isKeyword "in" && depth == 0 then some []
      else if token.isPunctuation "(" || token.isPunctuation "[" then
        (beforeIn? (depth + 1) after).map (token :: ·)
      else if token.isPunctuation ")" || token.isPunctuation "]" then
        match depth with
        | 0 => none
        | depth + 1 => (beforeIn? depth after).map (token :: ·)
      else if token.isPunctuation "\x7b" || token.isPunctuation "\x7d" || token.isPunctuation ";" then
        none
      else (beforeIn? depth after).map (token :: ·)

variable {depth length : Nat} {opening : Token} {after passed : List Token}

theorem isSome_beforeIn? (depth : Nat) (after : List Token) :
    (beforeIn? depth after).isSome = inFollows depth after := by
  induction after generalizing depth with
  | nil => rfl
  | cons token after ih =>
      cases depth <;>
        simp only [beforeIn?, inFollows, apply_ite Option.isSome, Option.isSome_map,
          Option.isSome_none, Option.isSome_some, ih]

/-- Of a group in square brackets the scan behind it decides whether it is a capture list. -/
theorem captureListLength?_eq_some_iff (hsquare : Bracket.opened? opening = some .square) :
    captureListLength? (opening :: after) = some length ↔
      squareGroupLength? 0 (opening :: after) = some length ∧
        ∃ passed, beforeIn? 0 ((opening :: after).drop length) = some passed := by
  obtain ⟨hkind, htext⟩ := Bracket.opened?_eq_some_iff.mp hsquare
  have hsymbol : opening.isSymbol "[" = true := by
    simp [Token.isSymbol, Token.spells, TokenKind.isSign, hkind, htext, Bracket.opener]
  rw [captureListLength?_cons, if_pos hsymbol, Option.bind_eq_some_iff]
  simp only [← Option.isSome_iff_exists, isSome_beforeIn?, Option.ite_none_right_eq_some,
    Option.some.injEq]
  constructor
  · rintro ⟨other, hgroup, hin, rfl⟩
    exact ⟨hgroup, hin⟩
  · rintro ⟨hgroup, hin⟩
    exact ⟨length, hgroup, hin, rfl⟩

end CaptureLint.Structure

namespace CaptureLint.Source

open Structure Capture

variable {source : Source} {node : Node} {brace opening closing : Token} {after : List Token}

namespace BraceAt

variable {start : Nat}

theorem start_eq (h : source.BraceAt start brace after) : brace.start = start := by
  obtain ⟨-, -, -, hstart⟩ := h
  exact hstart

theorem after_unique {other : Token} {after' : List Token} (h : source.BraceAt start brace after)
    (h' : source.BraceAt start other after') : after = after' := by
  have hstarts := (source.ordered_tokens.filter (!·.kind.isTrivia)).starts
  have hsame : brace.start = other.start := h.start_eq.trans h'.start_eq.symm
  obtain ⟨earlier, hsplit, -⟩ := h
  obtain ⟨earlier', hsplit', -⟩ := h'
  have hboth := hsplit.symm.trans hsplit'
  rcases List.append_eq_append_iff.mp hboth with ⟨middle, hearlier, hrest⟩ |
      ⟨middle, hearlier, hrest⟩
  · cases middle with
    | nil => exact (List.cons.inj hrest).2
    | cons token middle =>
        obtain ⟨rfl, -⟩ := List.cons.inj hrest
        rw [hsplit', hearlier, List.pairwise_append] at hstarts
        have hlt := hstarts.2.2 brace (by simp) other List.mem_cons_self
        omega
  · cases middle with
    | nil => exact (List.cons.inj hrest).2.symm
    | cons token middle =>
        obtain ⟨rfl, -⟩ := List.cons.inj hrest
        rw [hsplit, hearlier, List.pairwise_append] at hstarts
        have hlt := hstarts.2.2 other (by simp) brace List.mem_cons_self
        omega

end BraceAt

theorem head_of_brace (hnode : node ∈ Node.closures (source.structureOf source.tokens))
    (hbrace : source.BraceAt node.start brace after) :
    Head after node.stop (node.children.head?.map Node.start) := by
  obtain ⟨hmem, hkind⟩ := Node.mem_closures.mp hnode
  obtain ⟨earlier, other, after', hsplit, hcurly, hstart, hhead⟩ :=
    wellHeaded_of_mem_ofTokens _ source.ordered_tokens hmem hkind
  rw [hbrace.after_unique ⟨earlier, hsplit, hcurly, hstart⟩]
  exact hhead

theorem start_ne_of_passed (hnode : node ∈ Node.closures (source.structureOf source.tokens))
    (hbrace : source.BraceAt node.start brace after) {token : Token} (htoken : token ∈ after)
    (hstop : token.stop ≤ node.headStop) {other : Node}
    (hother : other ∈ Node.forestPreorder (source.structureOf source.tokens)) :
    other.start ≠ token.start := by
  obtain ⟨hmem, -⟩ := Node.mem_closures.mp hnode
  have hnested : other.Nested :=
    (nested_of_mem_ofTokens source.lineOfByte source.ordered_tokens hother).1
  have hlt := source.ordered_tokens.nonempty token
    (hbrace.mem_tokens (List.mem_cons_of_mem _ htoken))
  have hafter : brace.stop ≤ token.start := (List.pairwise_cons.mp hbrace.pairwise).1 token htoken
  have hstart := hbrace.start_eq
  have hbraceLt := source.ordered_tokens.nonempty brace (hbrace.mem_tokens List.mem_cons_self)
  have hprecedes := pairwise_precedes_ofTokens source.lineOfByte source.ordered_tokens
  rcases Token.related_of_pairwise hprecedes hmem hother with rfl | hle | hle
  · omega
  · have hhead := hle.1
    omega
  · have hhead := hle.1
    have hhead' := Node.start_le_headStop hnested
    omega

/-- A capture list that the builder has passed over stands in the window of its closure. -/
theorem bracketed_of_captures (hnode : node ∈ Node.closures (source.structureOf source.tokens))
    (hbrace : source.BraceAt node.start brace after)
    (hhead : Head after node.stop (node.children.head?.map Node.start)) {length : Nat}
    (hlength : captureListLength? after = some length) :
    (∀ token ∈ after.take length, token.stop ≤ node.headStop) ∧
      ∃ opening closing, after[0]? = some opening ∧ after[length - 1]? = some closing ∧
        source.Bracketed brace opening closing node.headStop := by
  have hpassed : ∀ token ∈ after.take length, token.stop ≤ node.headStop := by
    intro token htoken
    obtain ⟨hlimit, hchild⟩ := hhead.passed length hlength token htoken
    rw [Node.headStop]
    cases hchildren : node.children.head?.map Node.start with
    | none => exact hlimit
    | some first => exact hchild first hchildren
  refine ⟨hpassed, ?_⟩
  obtain ⟨opening, inner, closing, rest, rfl, rfl, hopening, hclosed⟩ :=
    split_of_captureListLength? hlength
  obtain ⟨hfirst, hrest⟩ := List.pairwise_cons.mp hbrace.pairwise
  have hclosing : closing ∈ inner ++ closing :: rest := by simp
  refine ⟨opening, closing, rfl, by simp, ?_⟩
  exact
    { brace_mem := hbrace.mem_tokens List.mem_cons_self
      opening_mem := hbrace.mem_tokens (List.mem_cons_of_mem _ List.mem_cons_self)
      closing_mem := hbrace.mem_tokens (List.mem_cons_of_mem _ (List.mem_cons_of_mem _ hclosing))
      brace_text := hbrace.text.2
      opening_text := hopening
      closing_text := (Bracket.closed?_eq_some_iff.mp hclosed).2
      brace_le := hfirst opening List.mem_cons_self
      opening_le := (List.pairwise_cons.mp hrest).1 closing hclosing
      closing_le := hpassed closing (by simp [List.take_append])
      boundary := Closure.isBoundary_headStop (Node.mem_closures.mp hnode).1 }

theorem byteOfChar?_succ {offset byte : Nat} {c : Char} (h : source.byteOfChar? offset = some byte)
    (hc : source.chars[offset]? = some c) :
    source.byteOfChar? (offset + 1) = some (byte + c.utf8Size) := by
  obtain ⟨-, rfl⟩ := byteOfChar?_eq_some_iff.mp h
  obtain ⟨hlt, -⟩ := List.getElem?_eq_some_iff.mp hc
  rw [byteOfChar?_eq_some_iff, List.take_add_one, hc, bytesOf_append]
  exact ⟨hlt, rfl⟩

end CaptureLint.Source

namespace CaptureLint.UnusedCapture

open Capture

variable {source : Source} {closure : Closure} {window : CharRange} {list : Listing}

theorem value_check_of_listing (severity : Severity) (hfits : closure.Fits source)
    (hwindow : closure.window? source = some window) (hlist : listing? source window = some list)
    {start stop : Nat} (hrange : source.toCharRange? (.between start stop) = some list.range)
    (hle : start ≤ stop) :
    source.byteOfChar? list.range.start = some start ∧
      (check severity (.ofSource source) closure).value =
        ((entries list.text).filter
          (Unused source.tokens (stop + 1) closure.range.stop ·)).map
            (violation severity source list.range.start) := by
  obtain ⟨whole, -, hwhole, -⟩ := Closure.fits_iff.mp hfits
  obtain ⟨bodyStart, hbody, hfound⟩ := violations?_of_listing severity hwhole hwindow hlist
  obtain ⟨hstart, hstop⟩ := Source.toCharRange?_eq_some_iff.mp hrange
  rw [ByteRange.stop_between hle] at hstop
  have hnext := Source.byteOfChar?_succ hstop (listing_bounds hlist).2.2.2
  obtain rfl : bodyStart = stop + 1 := Option.some.inj (hbody.symm.trans hnext)
  refine ⟨hstart, ?_⟩
  rw [check, hfound]
  rfl

end CaptureLint.UnusedCapture

namespace CaptureLint.Source

open Structure Capture UnusedCapture

variable {source : Source} {node : Node} {brace opening : Token} {after : List Token}

/-- Whether a closure opens with a capture list is decided by the scan behind the first group alone.
If it reaches an `in`, no expression starts at the bracket and the rule reports what the closure does
not use of the group, whatever tokens stand between the group and the keyword.  Otherwise the group
is the literal that the first expression of the closure starts with. -/
theorem captures_up_to_in (hnode : node ∈ Node.closures (source.structureOf source.tokens))
    (hbrace : source.BraceAt node.start brace (opening :: after))
    (hsquare : Bracket.opened? opening = some .square) :
    ((∃ length passed, squareGroupLength? 0 (opening :: after) = some length ∧
        beforeIn? 0 ((opening :: after).drop length) = some passed) ↔
      ∀ other ∈ Node.forestPreorder (source.structureOf source.tokens),
        other.start ≠ opening.start) ∧
    ∀ length passed, squareGroupLength? 0 (opening :: after) = some length →
      beforeIn? 0 ((opening :: after).drop length) = some passed →
      (∀ token ∈ (opening :: after).take length,
        ∀ other ∈ Node.forestPreorder (source.structureOf source.tokens),
          other.start ≠ token.start) ∧
      ∃ closure closing blanks group, Closure.ofNode? node = some closure ∧
        (opening :: after)[length - 1]? = some closing ∧
        source.substringOfBytes? (.between brace.stop opening.start) = some blanks ∧
        source.substringOfBytes? (.between opening.stop closing.start) = some group ∧
        (Text.allBlank blanks = true → Text.allBlank group = false → '[' ∉ group → ']' ∉ group →
          ∀ severity, ∃ listStart, source.byteOfChar? listStart = some opening.stop ∧
            (check severity (.ofSource source) closure).value =
              ((entries group).filter (Unused source.tokens closing.stop node.stop ·)).map
                (violation severity source listStart)) := by
  have hhead := head_of_brace hnode hbrace
  obtain ⟨hmem, hkind⟩ := Node.mem_closures.mp hnode
  have hpassed : ∀ {length}, captureListLength? (opening :: after) = some length →
      ∀ token ∈ (opening :: after).take length,
        ∀ other ∈ Node.forestPreorder (source.structureOf source.tokens),
          other.start ≠ token.start := by
    intro length hlength token htoken other hother
    exact start_ne_of_passed hnode hbrace (List.mem_of_mem_take htoken)
      ((bracketed_of_captures hnode hbrace hhead hlength).1 token htoken) hother
  refine ⟨⟨?_, ?_⟩, ?_⟩
  · rintro ⟨length, passed, hgroup, hin⟩
    have hlength := (captureListLength?_eq_some_iff hsquare).mpr ⟨hgroup, passed, hin⟩
    obtain ⟨first, inner, closing, rest, heq, rfl, -⟩ := split_of_captureListLength? hlength
    exact hpassed hlength opening (by simp)
  · intro hnone
    cases hlength : captureListLength? (opening :: after) with
    | some length =>
        obtain ⟨hgroup, passed, hin⟩ := (captureListLength?_eq_some_iff hsquare).mp hlength
        exact ⟨length, passed, hgroup, hin⟩
    | none =>
        -- the first expression of the closure starts at the bracket
        obtain ⟨child, hchild, hfirst⟩ :=
          Option.map_eq_some_iff.mp (hhead.literal hlength opening rfl hsquare)
        exact absurd hfirst (hnone child
          (Node.forestPreorder_of_child (List.mem_of_head? hchild) _ hmem))
  · intro length passed hgroup hin
    have hlength := (captureListLength?_eq_some_iff hsquare).mpr ⟨hgroup, passed, hin⟩
    obtain ⟨-, first, closing, hfirst, hclosing, hbracketed⟩ :=
      bracketed_of_captures hnode hbrace hhead hlength
    obtain rfl : opening = first := Option.some.inj hfirst
    obtain ⟨blanks, group, hblanks, hgroupText, hlist⟩ := hbracketed.listing?
    have hclosure : Closure.ofNode? node = some _ := Closure.ofNode?_eq_some_iff.mpr ⟨hkind, rfl⟩
    refine ⟨hpassed hlength, _, closing, blanks, group, hclosure, hclosing, hblanks, hgroupText, ?_⟩
    intro hblank hnonblank hopen hclose severity
    have hfits := Closure.fits_of_mem_structureOf hmem hclosure
    obtain ⟨-, window, -, hwindow⟩ := Closure.fits_iff.mp hfits
    have hbytes := (Closure.window?_eq_some_iff.mp hwindow).1
    rw [Closure.windowBytes_of_node hclosure, ← hbrace.start_eq] at hbytes
    obtain ⟨range, hrange, hfound⟩ := hlist hblank hnonblank hopen hclose window hbytes
    have hclosingStop : closing.stop = closing.start + 1 := by
      rw [Token.stop_eq, hbracketed.closing_text]
      rfl
    rw [hclosingStop]
    exact ⟨range.start,
      value_check_of_listing severity hfits hwindow hfound hrange hbracketed.opening_le⟩

def loopAfterLiteral : Source := ⟨none, "\x7b [a]\n for x in xs \x7b b(x) \x7d \x7d".toList⟩

theorem before_in_of_loop :
    ∃ node ∈ Node.closures (loopAfterLiteral.structureOf loopAfterLiteral.tokens),
      Closure.ofNode? node = some ⟨⟨0, 29⟩, some 21⟩ ∧
      ∃ brace opening after length passed,
        loopAfterLiteral.BraceAt node.start brace (opening :: after) ∧
        Bracket.opened? opening = some .square ∧
        squareGroupLength? 0 (opening :: after) = some length ∧
        beforeIn? 0 ((opening :: after).drop length) = some passed ∧
        passed.any (·.isKeyword "for") = true := by
  have hclosures : (Node.closures (loopAfterLiteral.structureOf loopAfterLiteral.tokens)).map
      Closure.ofNode? = [some ⟨⟨0, 29⟩, some 21⟩] := by decide +kernel
  have htokens : loopAfterLiteral.tokens.filter (!·.kind.isTrivia) =
      [] ++ ⟨.punctuation, 0, ['\x7b']⟩ :: ⟨.punctuation, 2, ['[']⟩ ::
        (loopAfterLiteral.tokens.filter (!·.kind.isTrivia)).drop 2 := by decide +kernel
  obtain ⟨node, hnode, hclosure⟩ := List.mem_map.mp (hclosures ▸ List.mem_singleton_self _)
  obtain ⟨-, hrange⟩ := Closure.ofNode?_eq_some_iff.mp hclosure
  have hstart : 0 = node.start := by rw [Node.start, ← (Closure.mk.inj hrange).1]
  refine ⟨node, hnode, hclosure, _, _, _, 3,
    [⟨.keyword, 7, "for".toList⟩, ⟨.identifier, 11, ['x']⟩], ⟨_, htokens, rfl, hstart⟩, rfl, ?_⟩
  decide +kernel

theorem captures_up_to_in_of_loop :
    ∃ node ∈ Node.closures (loopAfterLiteral.structureOf loopAfterLiteral.tokens),
      ∃ brace opening after, loopAfterLiteral.BraceAt node.start brace (opening :: after) ∧
        ∀ other ∈ Node.forestPreorder (loopAfterLiteral.structureOf loopAfterLiteral.tokens),
          other.start ≠ opening.start := by
  obtain ⟨node, hnode, -, brace, opening, after, length, passed, hbrace, hsquare, hgroup, hin, -⟩ :=
    before_in_of_loop
  have hcaptures := captures_up_to_in hnode hbrace hsquare
  exact ⟨node, hnode, brace, opening, after, hbrace,
    hcaptures.1.mp ⟨length, passed, hgroup, hin⟩⟩

/-- A list literal in front of a loop is not always a literal of the structure whose elements the
rule leaves alone: the element of this one is reported. -/
theorem literal_before_loop_reported :
    ¬ ∀ (source : Source) (node : Node) (brace opening : Token) (after passed : List Token)
        (length : Nat), node ∈ Node.closures (source.structureOf source.tokens) →
      source.BraceAt node.start brace (opening :: after) →
      Bracket.opened? opening = some .square →
      squareGroupLength? 0 (opening :: after) = some length →
      beforeIn? 0 ((opening :: after).drop length) = some passed →
      passed.any (·.isKeyword "for") = true →
      (∃ literal ∈ Node.forestPreorder node.children,
        (literal.kind = .array ∨ literal.kind = .dictionary) ∧ literal.start = opening.start) ∧
      ∀ closure severity, Closure.ofNode? node = some closure →
        (check severity (.ofSource source) closure).value = [] := by
  intro hall
  obtain ⟨node, hnode, hclosure, brace, opening, after, length, passed, hbrace, hsquare, hgroup, hin,
    hfor⟩ := before_in_of_loop
  have hclaim := hall loopAfterLiteral node brace opening after passed length hnode hbrace hsquare
    hgroup hin hfor
  have hreported : ((check .warning (.ofSource loopAfterLiteral) ⟨⟨0, 29⟩, some 21⟩).value.map
      (·.reference)) = ["a"] := by decide +kernel
  rw [hclaim.2 _ .warning hclosure] at hreported
  cases hreported

end CaptureLint.Source
