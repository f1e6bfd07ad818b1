import CaptureLint.Proofs.Token.Stream
import CaptureLint.Structure.Builder

/-!
# What one token can do

The tokens read so far determine a `seam`, the byte offset after the last bracket among them: nodes
that are complete end before it, and a node that starts later starts at or after it.  `Begins` lists
everything that an opening bracket can do to the level it stands in, and `Opens` what follows for the
seam; every invariant of a run is proved from these lists and from what finishing a group does.
-/

namespace CaptureLint.Bracket

def opener : Bracket → Char
  | .round => '('
  | .square => '['
  | .curly => '\x7b'

def closer : Bracket → Char
  | .round => ')'
  | .square => ']'
  | .curly => '\x7d'

theorem opened?_eq_some_iff {token : Token} {bracket : Bracket} :
    opened? token = some bracket ↔
      token.kind = .punctuation ∧ token.text = [opener bracket] := by
  by_cases hkind : token.kind = .punctuation <;> cases bracket <;>
    simp [opened?, Token.isPunctuation, Token.spells, hkind, opener] <;> grind

theorem closed?_eq_some_iff {token : Token} {bracket : Bracket} :
    closed? token = some bracket ↔
      token.kind = .punctuation ∧ token.text = [closer bracket] := by
  by_cases hkind : token.kind = .punctuation <;> cases bracket <;>
    simp [closed?, Token.isPunctuation, Token.spells, hkind, closer] <;> grind

theorem opened?_of_closed? {token : Token} {bracket : Bracket} (h : closed? token = some bracket) :
    opened? token = none := by
  rw [Option.eq_none_iff_forall_ne_some]
  intro other hother
  have htext := (opened?_eq_some_iff.mp hother).2
  rw [(closed?_eq_some_iff.mp h).2] at htext
  cases bracket <;> cases other <;> simp [opener, closer] at htext

end CaptureLint.Bracket

namespace CaptureLint.NodeKind

def bracket : NodeKind → Bracket
  | closure => .curly
  | call => .round
  | array => .square
  | dictionary => .square
  | tuple => .round

end CaptureLint.NodeKind

namespace CaptureLint.Structure

/-! ## Brackets and the seam -/

def isBracket (token : Token) : Bool :=
  (Bracket.opened? token).isSome || (Bracket.closed? token).isSome

theorem isBracket_eq_false_iff {token : Token} : isBracket token = false ↔
    Bracket.opened? token = none ∧ Bracket.closed? token = none := by
  rw [isBracket, Bool.or_eq_false_iff, Option.isSome_eq_false_iff, Option.isNone_iff_eq_none,
    Option.isSome_eq_false_iff, Option.isNone_iff_eq_none]

/-- The byte offset after the last bracket among the tokens read, which are given newest first. -/
def seam : List Token → Nat
  | [] => 0
  | token :: before => if isBracket token then token.stop else seam before

/-- Tokens read, newest first, and tokens to be read that make up an ordered list of tokens. -/
structure Reading (tokens before rest : List Token) : Prop where
  split : tokens = before.reverse ++ rest
  ordered : Token.Ordered tokens

namespace Reading

variable {tokens before after rest : List Token} {token : Token}

theorem next (h : Reading tokens before (token :: after)) :
    Reading tokens (token :: before) after :=
  ⟨by simp [h.split], h.ordered⟩

theorem mem_before (h : Reading tokens before rest) {other : Token} (ho : other ∈ before) :
    other ∈ tokens := by
  rw [h.split]
  exact List.mem_append_left _ (List.mem_reverse.mpr ho)

theorem mem_next (h : Reading tokens before (token :: after)) : token ∈ tokens := by
  rw [h.split]
  simp

theorem stop_le_start (h : Reading tokens before (token :: after)) {other : Token}
    (ho : other ∈ before) : other.stop ≤ token.start := by
  have hapart := h.ordered.apart
  rw [h.split, List.pairwise_append] at hapart
  exact hapart.2.2 other (List.mem_reverse.mpr ho) token List.mem_cons_self

theorem start_lt_stop (h : Reading tokens before (token :: after)) : token.start < token.stop :=
  h.ordered.nonempty token h.mem_next

theorem pairwise_before (h : Reading tokens before rest) :
    before.Pairwise fun later earlier => earlier.stop ≤ later.start := by
  have hapart := h.ordered.apart
  rw [h.split, List.pairwise_append] at hapart
  exact List.pairwise_reverse.mp hapart.1

end Reading

theorem seam_le {before : List Token} {bound : Nat} (h : ∀ token ∈ before, token.stop ≤ bound) :
    seam before ≤ bound := by
  induction before with
  | nil => exact Nat.zero_le _
  | cons token before ih =>
      unfold seam
      split
      · exact h token List.mem_cons_self
      · exact ih fun other ho => h other (List.mem_cons_of_mem _ ho)

def lastStopOf (before : List Token) : Nat := (before.head?.map Token.stop).getD 0

theorem Reading.stop_le_lastStop {tokens before rest : List Token}
    (h : Reading tokens before rest) : ∀ token ∈ before, token.stop ≤ lastStopOf before := by
  cases before with
  | nil => simp
  | cons last before =>
      intro token htoken
      rcases List.mem_cons.mp htoken with rfl | htoken
      · exact Nat.le_refl _
      · have hapart := h.ordered.apart
        rw [h.split, List.pairwise_append, List.reverse_cons, List.pairwise_append] at hapart
        have hle := hapart.1.2.2 token (List.mem_reverse.mpr htoken) last List.mem_cons_self
        exact Nat.le_trans hle (Nat.le_add_right _ _)

theorem Reading.seam_le_lastStop {tokens before rest : List Token}
    (h : Reading tokens before rest) : seam before ≤ lastStopOf before :=
  seam_le h.stop_le_lastStop

theorem Reading.lastStop_le_start {tokens before after : List Token} {token : Token}
    (h : Reading tokens before (token :: after)) : lastStopOf before ≤ token.start := by
  cases before with
  | nil => exact Nat.zero_le _
  | cons last before => exact h.stop_le_start List.mem_cons_self

theorem Reading.seam_le_start {tokens before after : List Token} {token : Token}
    (h : Reading tokens before (token :: after)) : seam before ≤ token.start :=
  seam_le fun _ ho => h.stop_le_start ho

theorem Reading.seam_lt_stop {tokens before rest : List Token} {token : Token}
    (h : Reading tokens before rest) (htoken : token ∈ rest) : seam before < token.stop := by
  have hapart := h.ordered.apart
  rw [h.split, List.pairwise_append] at hapart
  have hmem : token ∈ tokens := by
    rw [h.split]
    exact List.mem_append_right _ htoken
  have hlt := h.ordered.nonempty token hmem
  have hle : seam before ≤ token.start :=
    seam_le fun other hother => hapart.2.2 other (List.mem_reverse.mpr hother) token htoken
  omega

theorem Reading.seam_le_seam {tokens before after : List Token} {token : Token}
    (h : Reading tokens before (token :: after)) : seam before ≤ seam (token :: before) := by
  have hstart := h.seam_le_start
  have hlt := h.start_lt_stop
  rw [seam]
  split <;> omega

theorem seam_of_isBracket {token : Token} (before : List Token) (h : isBracket token = true) :
    seam (token :: before) = token.stop := by
  rw [seam, if_pos h]

/-- Every bracket that has been read ends at the seam or before it. -/
theorem Reading.stop_le_seam {tokens before rest : List Token} {token : Token}
    (h : Reading tokens before rest) (htoken : token ∈ before) (hbracket : isBracket token = true) :
    token.stop ≤ seam before := by
  have hapart := h.pairwise_before
  clear h
  induction before with
  | nil => cases htoken
  | cons last before ih =>
      obtain ⟨hlast, hapart⟩ := List.pairwise_cons.mp hapart
      rw [seam]
      rcases List.mem_cons.mp htoken with rfl | htoken
      · exact Nat.le_of_eq (if_pos hbracket).symm
      · have hle : last.start ≤ last.stop := Nat.le_add_right _ _
        have hstop := hlast token htoken
        have hseam := ih htoken hapart
        split <;> omega

theorem isBracket_of_opened {token : Token} {bracket : Bracket}
    (h : Bracket.opened? token = some bracket) : isBracket token = true := by
  simp [isBracket, h]

theorem isBracket_of_closed {token : Token} {bracket : Bracket}
    (h : Bracket.closed? token = some bracket) : isBracket token = true := by
  simp [isBracket, h]

theorem kind_of_isBracket {token : Token} (h : isBracket token = true) :
    token.kind = .punctuation := by
  rw [isBracket, Bool.or_eq_true, Option.isSome_iff_exists, Option.isSome_iff_exists] at h
  rcases h with ⟨bracket, h⟩ | ⟨bracket, h⟩
  · exact (Bracket.opened?_eq_some_iff.mp h).1
  · exact (Bracket.closed?_eq_some_iff.mp h).1

theorem not_isBracket_of_isChainName {token : Token} (h : isChainName token = true) :
    isBracket token = false := by
  rw [Bool.eq_false_iff]
  intro hb
  simp [isChainName, kind_of_isBracket hb] at h

theorem not_isBracket_of_isSuffix {token : Token} {before : List Token}
    (h : isSuffix token before = true) : isBracket token = false := by
  rw [Bool.eq_false_iff]
  intro hb
  simp [isSuffix, kind_of_isBracket hb] at h

theorem not_isBracket_of_dot {token : Token} (h : token.isSymbol "." = true) :
    isBracket token = false := by
  have htext : token.text = ['.'] := by
    simp only [Token.isSymbol, Token.spells, Bool.and_eq_true, beq_iff_eq] at h
    exact h.2
  rw [Bool.eq_false_iff, isBracket, ne_eq, Bool.or_eq_true, Option.isSome_iff_exists,
    Option.isSome_iff_exists]
  rintro (⟨bracket, h⟩ | ⟨bracket, h⟩)
  · have hother := (Bracket.opened?_eq_some_iff.mp h).2
    cases bracket <;> simp [htext, Bracket.opener] at hother
  · have hother := (Bracket.closed?_eq_some_iff.mp h).2
    cases bracket <;> simp [htext, Bracket.closer] at hother

/-! ## The start of a callee -/

/-- A byte offset at which a token starts that was read since the last bracket. -/
def StartsSince (before : List Token) (start : Nat) : Prop :=
  seam before ≤ start ∧ ∃ token ∈ before, token.start = start

theorem StartsSince.cons {before : List Token} {start : Nat} {token : Token}
    (hb : isBracket token = false) (h : StartsSince before start) :
    StartsSince (token :: before) start := by
  obtain ⟨hle, other, hother, hstart⟩ := h
  refine ⟨?_, other, List.mem_cons_of_mem _ hother, hstart⟩
  rw [seam, if_neg (by simp [hb])]
  exact hle

theorem startsSince_head {before : List Token} {token : Token}
    (hb : isBracket token = false) (h : ∀ other ∈ before, other.stop ≤ token.start) :
    StartsSince (token :: before) token.start := by
  refine ⟨?_, token, List.mem_cons_self, rfl⟩
  rw [seam, if_neg (by simp [hb])]
  exact seam_le h

/-- Where the callee before a bracket starts, and which group it follows: no bracket is stepped
over, so a group is closed by the last bracket read. -/
def CalleeSince (found : Option Nat) (before : List Token) : Callee → Prop
  | .chain first => found = some first ∨ StartsSince before first
  | .group stop first? =>
      stop = seam before ∧ ∀ first ∈ first?, found = some first ∨ StartsSince before first

theorem CalleeSince.skip {found : Option Nat} {before : List Token} {token : Token}
    {callee : Callee} (hb : isBracket token = false) (h : CalleeSince found before callee) :
    CalleeSince found (token :: before) callee := by
  have hseam : seam (token :: before) = seam before := by rw [seam, if_neg (by simp [hb])]
  cases callee with
  | chain first => exact h.imp_right (StartsSince.cons hb)
  | group stop first? =>
      exact ⟨h.1.trans hseam.symm, fun first hf => (h.2 first hf).imp_right (StartsSince.cons hb)⟩

/-- A token of a chain is where the callee starts, unless the chain goes on further back. -/
theorem CalleeSince.take {found : Option Nat} {before : List Token} {token : Token}
    {callee : Callee} (hb : isBracket token = false)
    (hstop : ∀ other ∈ before, other.stop ≤ token.start)
    (h : CalleeSince (some token.start) before callee) :
    CalleeSince found (token :: before) callee := by
  have hstart : ∀ {first}, some token.start = some first ∨ StartsSince (token :: before) first →
      found = some first ∨ StartsSince (token :: before) first := by
    rintro first (heq | hsince)
    · obtain rfl := Option.some.inj heq
      exact .inr (startsSince_head hb hstop)
    · exact .inr hsince
  have hskip := h.skip hb
  cases callee with
  | chain first => exact hstart hskip
  | group stop first? => exact ⟨hskip.1, fun first hf => hstart (hskip.2 first hf)⟩

theorem calleeSince_map_chain {found : Option Nat} {before : List Token} {callee : Callee}
    (h : found.map Callee.chain = some callee) : CalleeSince found before callee := by
  obtain ⟨first, hfound, rfl⟩ := Option.map_eq_some_iff.mp h
  exact .inl hfound

theorem calleeSince_calleeFrom {found : Option Nat} {before : List Token} {callee : Callee}
    (hapart : before.Pairwise fun later earlier => earlier.stop ≤ later.start)
    (h : calleeFrom found before = some callee) : CalleeSince found before callee := by
  fun_induction calleeFrom found before generalizing callee with
  | case1 found => exact calleeSince_map_chain h
  | case2 found token hname dot before hdot ih =>
      obtain ⟨-, hrest⟩ := List.pairwise_cons.mp hapart
      obtain ⟨hstop, hrest⟩ := List.pairwise_cons.mp hrest
      exact ((ih hrest h).take (not_isBracket_of_dot hdot) hstop).skip
        (not_isBracket_of_isChainName hname)
  | case3 found token hname dot before hdot =>
      obtain ⟨hstop, -⟩ := List.pairwise_cons.mp hapart
      cases h
      exact .inr (startsSince_head (not_isBracket_of_isChainName hname) hstop)
  | case4 found token hname =>
      cases h
      exact .inr (startsSince_head (not_isBracket_of_isChainName hname) (by simp))
  | case5 found token before hname hsuffix ih =>
      obtain ⟨hstop, hrest⟩ := List.pairwise_cons.mp hapart
      exact (ih hrest h).take (not_isBracket_of_isSuffix hsuffix) hstop
  | case6 found token before hname hsuffix hclosed =>
      cases h
      have hbracket : isBracket token = true := by rw [isBracket, hclosed, Bool.or_true]
      exact ⟨(seam_of_isBracket before hbracket).symm, fun first hf => .inl hf⟩
  | case7 found token before hname hsuffix hclosed => exact calleeSince_map_chain h

/-! ## Ends of groups -/

/-- A property of a level and of the groups around it, with a byte offset before which everything
complete ends, that holds on when the innermost group ends at one of the offsets `ends`. -/
structure KeptByFinish (ends : Nat → Prop) (Kept : Nat → List Node → List Group → Prop) : Prop where
  mono : ∀ {limit limit' nodes groups}, Kept limit nodes groups → limit ≤ limit' →
    Kept limit' nodes groups
  finish : ∀ {limit stop nodes group groups}, Kept limit nodes (group :: groups) → limit ≤ stop →
    ends stop → Kept stop (group.finish nodes stop).nodes groups

namespace KeptByFinish

variable {ends : Nat → Prop} {Kept : Nat → List Node → List Group → Prop}
  {limit lastStop stop : Nat} {level : Level} {groups : List Group}

/-- A closing bracket keeps what every end of a group keeps. -/
theorem closeGroups (hkept : KeptByFinish ends Kept) (bracket : Bracket)
    (h : Kept limit level.nodes groups) (hlast : limit ≤ lastStop) (hle : lastStop ≤ stop)
    (hstop : ends stop) (hlastStop : groups ≠ [] → ends lastStop) :
    Kept stop (Builder.closeGroups bracket lastStop stop level groups).1.nodes
      (Builder.closeGroups bracket lastStop stop level groups).2 := by
  induction groups generalizing level limit with
  | nil => exact hkept.mono h (Nat.le_trans hlast hle)
  | cons group groups ih =>
      have hend := hlastStop (List.cons_ne_nil group groups)
      unfold Builder.closeGroups
      split
      · exact hkept.finish h (Nat.le_trans hlast hle) hstop
      · exact ih (hkept.finish h hlast hend) (Nat.le_refl _) (fun _ => hend)

theorem closeAll (hkept : KeptByFinish ends Kept) (h : Kept limit level.nodes groups)
    (hlast : limit ≤ lastStop) (hlastStop : groups ≠ [] → ends lastStop) :
    Kept lastStop (Builder.closeAll lastStop level groups).nodes [] := by
  induction groups generalizing level limit with
  | nil => exact hkept.mono h hlast
  | cons group groups ih =>
      have hend := hlastStop (List.cons_ne_nil group groups)
      exact ih (hkept.finish h hlast hend) (Nat.le_refl _) (fun _ => hend)

end KeptByFinish

/-! ## Opening brackets -/

/-- Everything that an opening bracket can do to the nodes of the level it stands in: what the group
becomes, the nodes left in the level, the nodes that the group starts with, and the number of tokens
of a capture list.  `body` tells whether the place is one for the body of a statement. -/
inductive Begins (body : Bool) (before : List Token) (token : Token) (after : List Token) :
    Bracket → List Node → Option (NodeKind × Nat) → List Node → List Node → Nat → Prop where
  | subscript (nodes : List Node) (hfollows : followsCallee before token.start = true) :
      Begins body before token after .square nodes none nodes [] 0
  | body (nodes : List Node) (hbody : body = true) :
      Begins body before token after .curly nodes none nodes [] 0
  | literal (nodes : List Node) (kind : NodeKind) (hcall : kind ≠ .call) (hclosure : kind ≠ .closure)
      (htuple : kind = .tuple → callee? before = none) :
      Begins body before token after kind.bracket nodes (some (kind, token.start)) nodes [] 0
  | closure (nodes : List Node) (hbody : body = false) :
      Begins body before token after .curly nodes (some (.closure, token.start)) nodes []
        ((captureListLength? after).getD 0)
  /-- A call of a chain of names. -/
  | chain (nodes : List Node) {first : Nat} (hcallee : callee? before = some (.chain first)) :
      Begins body before token after .round nodes (some (.call, first)) nodes [] 0
  /-- A call of a group that has left no node. -/
  | group (nodes : List Node) {stop : Nat} {first? : Option Nat}
      (hcallee : callee? before = some (.group stop first?))
      (hlast : ∀ last ∈ nodes.head?, last.stop ≠ stop) :
      Begins body before token after .round nodes (some (.call, first?.getD token.start)) nodes [] 0
  /-- A call whose callee is the node that the last bracket closed. -/
  | adoption (last : Node) (older : List Node) {first? : Option Nat}
      (hcallee : callee? before = some (.group last.stop first?)) :
      Begins body before token after .round (last :: older) (some (.call, last.start)) older [last] 0

/-- What an opening bracket does, with the places of nodes related to the seam. -/
inductive Opens (before : List Token) (token : Token) (after : List Token) :
    List Node → Option (NodeKind × Nat) → List Node → List Node → Nat → Prop where
  /-- The body of a statement, or a subscript. -/
  | transparent (nodes : List Node) : Opens before token after nodes none nodes [] 0
  /-- A literal, or a call that starts with a chain of names or with its bracket. -/
  | expression (nodes : List Node) {kind : NodeKind} {start : Nat} (hkind : kind ≠ .closure)
      (hseam : seam before ≤ start) (hle : start ≤ token.start)
      (hstart : ∃ other ∈ token :: before, other.start = start) :
      Opens before token after nodes (some (kind, start)) nodes [] 0
  | closure (nodes : List Node) (hcurly : Bracket.opened? token = some .curly) :
      Opens before token after nodes (some (.closure, token.start)) nodes []
        ((captureListLength? after).getD 0)
  /-- A call whose callee is the node that the last bracket closed. -/
  | adoption (last : Node) (older : List Node) (hlast : last.stop = seam before) :
      Opens before token after (last :: older) (some (.call, last.start)) older [last] 0

namespace Builder

variable {lineOf : Nat → Nat} {builder : Builder} {token : Token} {tokens after : List Token}

theorem openGroup_eq (hcaptures : builder.captures = 0) (bracket : Bracket)
    (becomes : Option (NodeKind × Nat)) (outer : Level) (inner : List Node) :
    builder.openGroup bracket becomes outer inner =
      { builder.openGroup bracket becomes outer inner with captures := 0 } := by
  simp [openGroup, hcaptures]

theorem openRound_begins (body : Bool) (builder : Builder) (token : Token) (after : List Token) :
    ∃ becomes outer inner,
      builder.openRound token.start = builder.openGroup .round becomes outer inner ∧
      Begins body builder.before token after .round builder.level.nodes becomes outer.nodes inner 0 := by
  unfold openRound
  cases hcallee : callee? builder.before with
  | none =>
      exact ⟨_, _, _, rfl, .literal _ .tuple (by decide) (by decide) fun _ => hcallee⟩
  | some callee =>
      cases callee with
      | chain first => exact ⟨_, _, _, rfl, .chain _ hcallee⟩
      | group stop first? =>
          have hgroup := @Begins.group body builder.before token after builder.level.nodes _ _ hcallee
          dsimp only
          cases hnodes : builder.level.nodes with
          | nil => exact ⟨_, _, _, rfl, hnodes ▸ hgroup (by simp [hnodes])⟩
          | cons last older =>
              dsimp only
              split
              · rename_i hlast
                exact ⟨_, _, _, rfl, .adoption last older (hlast ▸ hcallee)⟩
              · rename_i hlast
                exact ⟨_, _, _, rfl, hnodes ▸ hgroup (by simpa [hnodes] using hlast)⟩

/-- An opening bracket opens one group, in one of the ways listed. -/
theorem act_begins (lineOf : Nat → Nat) (after : List Token) {bracket : Bracket}
    (hcaptures : builder.captures = 0) (hopened : Bracket.opened? token = some bracket) :
    ∃ becomes outer inner captures,
      builder.act lineOf token after =
        { builder.openGroup bracket becomes outer inner with captures } ∧
      Begins (opensBody lineOf builder.level.pending builder.before token.start) builder.before token
        after bracket builder.level.nodes becomes outer.nodes inner captures := by
  unfold act
  cases bracket with
  | round =>
      obtain ⟨becomes, outer, inner, hact, hbegins⟩ := openRound_begins _ builder token after
      refine ⟨becomes, outer, inner, 0, ?_, hbegins⟩
      rw [← openGroup_eq hcaptures, ← hact, hopened]
  | square =>
      rw [hopened]
      dsimp only [openSquare]
      rw [openGroup_eq hcaptures]
      refine ⟨_, _, _, _, rfl, ?_⟩
      split
      · rename_i hfollows
        exact .subscript _ hfollows
      · split
        · exact .literal _ .dictionary (by decide) (by decide) nofun
        · exact .literal _ .array (by decide) (by decide) nofun
  | curly =>
      rw [hopened]
      dsimp only [openCurly]
      split
      · rename_i hbody
        rw [openGroup_eq hcaptures]
        exact ⟨_, _, _, _, rfl, .body _ hbody⟩
      · rename_i hbody
        exact ⟨_, _, _, _, rfl, .closure _ (Bool.eq_false_iff.mpr hbody)⟩

theorem opens_since {before : List Token} (hreading : Reading tokens before (token :: after))
    (nodes : List Node) {start : Nat} (h : StartsSince before start) :
    Opens before token after nodes (some (.call, start)) nodes [] 0 := by
  obtain ⟨hseam, other, hother, rfl⟩ := h
  have hle : other.start ≤ other.stop := Nat.le_add_right _ _
  exact .expression nodes (by decide) hseam (Nat.le_trans hle (hreading.stop_le_start hother))
    ⟨other, List.mem_cons_of_mem _ hother, rfl⟩

theorem opens_of_begins {body : Bool} {before : List Token} {bracket : Bracket} {nodes outer inner : List Node}
    {becomes : Option (NodeKind × Nat)} {captures : Nat}
    (hreading : Reading tokens before (token :: after))
    (hopened : Bracket.opened? token = some bracket)
    (h : Begins body before token after bracket nodes becomes outer inner captures) :
    Opens before token after nodes becomes outer inner captures := by
  have htoken : ∀ {kind}, kind ≠ .closure →
      Opens before token after nodes (some (kind, token.start)) nodes [] 0 := fun hkind =>
    .expression nodes hkind hreading.seam_le_start (Nat.le_refl _)
      ⟨token, List.mem_cons_self, rfl⟩
  have hsince : ∀ {callee}, callee? before = some callee → CalleeSince none before callee :=
    calleeSince_calleeFrom hreading.pairwise_before
  cases h with
  | subscript => exact .transparent _
  | body => exact .transparent _
  | literal _ kind hcall hclosure htuple => exact htoken hclosure
  | closure => exact .closure _ hopened
  | chain _ hcallee =>
      rcases hsince hcallee with h | h
      · cases h
      · exact opens_since hreading _ h
  | @group _ stop first? hcallee hlast =>
      cases first? with
      | none => exact htoken (by decide)
      | some first =>
          rcases (hsince hcallee).2 first rfl with h | h
          · cases h
          · exact opens_since hreading _ h
  | adoption last _ hcallee => exact .adoption last outer (hsince hcallee).1

theorem act_of_opened (lineOf : Nat → Nat) {bracket : Bracket}
    (hreading : Reading tokens builder.before (token :: after))
    (hcaptures : builder.captures = 0) (hopened : Bracket.opened? token = some bracket) :
    ∃ becomes outer inner captures,
      builder.act lineOf token after =
        { builder.openGroup bracket becomes outer inner with captures } ∧
      Opens builder.before token after builder.level.nodes becomes outer.nodes inner captures := by
  obtain ⟨becomes, outer, inner, captures, hact, hbegins⟩ := act_begins lineOf after hcaptures hopened
  exact ⟨becomes, outer, inner, captures, hact, opens_of_begins hreading hopened hbegins⟩

/-! ## All other tokens -/

theorem act_of_closed {bracket : Bracket} (hclosed : Bracket.closed? token = some bracket) :
    builder.act lineOf token after =
      { builder with
        level := (closeGroups bracket builder.lastStop token.stop builder.level builder.groups).1
        groups :=
          (closeGroups bracket builder.lastStop token.stop builder.level builder.groups).2 } := by
  unfold act
  rw [Bracket.opened?_of_closed? hclosed, hclosed]

theorem act_of_plain (lineOf : Nat → Nat) (builder : Builder) (after : List Token)
    (h : isBracket token = false) :
    ∃ pending, builder.act lineOf token after =
      { builder with level := { builder.level with pending } } := by
  rw [isBracket_eq_false_iff] at h
  unfold act
  rw [h.1, h.2]
  exact ⟨_, rfl⟩

/-- A token is an opening bracket, a closing bracket or no bracket. -/
theorem bracket_cases (token : Token) :
    (∃ bracket, Bracket.opened? token = some bracket) ∨
      (∃ bracket, Bracket.closed? token = some bracket) ∨ isBracket token = false := by
  cases hopened : Bracket.opened? token with
  | some bracket => exact .inl ⟨bracket, rfl⟩
  | none =>
      cases hclosed : Bracket.closed? token with
      | some bracket => exact .inr (.inl ⟨bracket, rfl⟩)
      | none => exact .inr (.inr (by simp [isBracket, hopened, hclosed]))

end Builder

namespace KeptByFinish

variable {ends : Nat → Prop} {Kept : Nat → List Node → List Group → Prop} {lineOf : Nat → Nat}
  {builder : Builder} {token : Token} {tokens after : List Token}

/-- What the ends of groups keep is kept by a closing bracket, whichever groups it ends. -/
theorem act (hkept : KeptByFinish ends Kept) {bracket : Bracket}
    (hreading : Reading tokens builder.before (token :: after))
    (hclosed : Bracket.closed? token = some bracket)
    (h : Kept (seam builder.before) builder.level.nodes builder.groups) (hstop : ends token.stop)
    (hlastStop : builder.groups ≠ [] → ends builder.lastStop) :
    Kept token.stop (builder.act lineOf token after).level.nodes
      (builder.act lineOf token after).groups := by
  have hle := Nat.le_of_lt (Nat.lt_of_le_of_lt hreading.lastStop_le_start hreading.start_lt_stop)
  rw [Builder.act_of_closed hclosed]
  exact hkept.closeGroups bracket h hreading.seam_le_lastStop hle hstop hlastStop

/-- What opening brackets keep as well is kept by every token. -/
theorem step (hkept : KeptByFinish ends Kept)
    (hreading : Reading tokens builder.before (token :: after))
    (h : Kept (seam builder.before) builder.level.nodes builder.groups) (hstop : ends token.stop)
    (hlastStop : builder.groups ≠ [] → ends builder.lastStop)
    (hopens : ∀ {bracket becomes inner captures} {outer : Level},
      Bracket.opened? token = some bracket →
      Begins (Builder.opensBody lineOf builder.level.pending builder.before token.start)
        builder.before token after bracket builder.level.nodes becomes outer.nodes inner captures →
      Kept token.stop inner (⟨bracket, becomes, outer⟩ :: builder.groups)) :
    Kept (seam (token :: builder.before)) (builder.step lineOf token after).level.nodes
      (builder.step lineOf token after).groups := by
  unfold Builder.step
  cases hcaptures : builder.captures with
  | succ captures => exact hkept.mono h hreading.seam_le_seam
  | zero =>
      dsimp only
      rcases Builder.bracket_cases token with ⟨bracket, hopened⟩ | ⟨bracket, hclosed⟩ | hplain
      · obtain ⟨becomes, outer, inner, captures, hact, hbegins⟩ :=
          Builder.act_begins lineOf after hcaptures hopened
        rw [seam_of_isBracket _ (isBracket_of_opened hopened), hact]
        exact hopens hopened hbegins
      · rw [seam_of_isBracket _ (isBracket_of_closed hclosed)]
        exact hkept.act hreading hclosed h hstop hlastStop
      · obtain ⟨pending, hact⟩ := Builder.act_of_plain lineOf builder after hplain
        rw [hact]
        exact hkept.mono h hreading.seam_le_seam

end KeptByFinish

/-! ## Runs -/

namespace Builder

variable {lineOf : Nat → Nat} {builder : Builder} {token : Token} {tokens after : List Token}

/-- The states of the run over a list of tokens, each with the tokens that are still to be read. -/
inductive Reached (lineOf : Nat → Nat) (tokens : List Token) : Builder → List Token → Prop where
  | initial : Reached lineOf tokens .initial tokens
  | step {builder : Builder} {token : Token} {after : List Token}
      (reached : Reached lineOf tokens builder (token :: after)) :
      Reached lineOf tokens (builder.step lineOf token after) after

namespace Reached

variable {rest : List Token}

theorem run (h : Reached lineOf tokens builder rest) :
    Reached lineOf tokens (builder.run lineOf rest) [] := by
  induction rest generalizing builder with
  | nil => exact h
  | cons token after ih => exact ih h.step

theorem reading (hordered : Token.Ordered tokens) (h : Reached lineOf tokens builder rest) :
    Reading tokens builder.before rest := by
  induction h with
  | initial => exact ⟨rfl, hordered⟩
  | step reached ih => exact ih.next

end Reached

end Builder

end CaptureLint.Structure
