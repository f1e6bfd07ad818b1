import CaptureLint.Proofs.Token.ByteLexeme

/-!
# The reader of bytes

The tokens of a text can be found by a reader that stands at an offset among the bytes of the text, with
the open interpolations on a stack.  Only blanks, names and what is passed in literals are decoded.
Nothing in the steps says that the reader stops between characters, or that it goes on at all.
-/

namespace CaptureLint.Token

open Source

structure Span where
  kind : TokenKind
  start : Nat
  stop : Nat
deriving DecidableEq, Repr

def span (token : Token) : Span := ⟨token.kind, token.start, token.stop⟩

structure OpenSegment where
  delimiter : Delimiter
  /-- Where the segment starts. -/
  start : Nat
deriving DecidableEq, Repr

structure Reader where
  pos : Nat
  /-- The tokens so far, the last one first. -/
  found : List Span
  opened : List Interpolation
  segment : Option OpenSegment
deriving DecidableEq, Repr

namespace Reader

def start : Reader := ⟨0, [], [], none⟩

variable (bytes : List UInt8) (reader : Reader)

def advance (count : Nat) : Reader := { reader with pos := reader.pos + count }

/-- Takes what was read since an offset as a token. -/
def push (kind : TokenKind) (start : Nat) : Reader :=
  { reader with found := ⟨kind, start, reader.pos⟩ :: reader.found }

/-- The same, unless nothing was read. -/
def keep (kind : TokenKind) (start : Nat) : Reader :=
  if start < reader.pos then reader.push kind start else reader

/-- Whether a token that can take a suffix ends where the reader stands. -/
def bound : Bool :=
  reader.found.head?.any fun last => last.stop == reader.pos &&
    (Piece.lexeme last.kind
      (signs ((bytes.drop last.start).take (last.stop - last.start)))).takesSuffix

def close (segment : OpenSegment) : Reader :=
  { reader.keep .string segment.start with segment := none }

/-- One step in code; there is none at the end of the text. -/
def readCode : Option Reader :=
  let ahead := bytes.drop reader.pos
  match signs ahead with
  | [] => none
  | c :: _ =>
      match (firstChar? ahead).filter Text.isBlank with
      | some blank => some (reader.advance blank.utf8Size)
      | none =>
          match c, reader.opened with
          | ')', ⟨delimiter, 0⟩ :: outer =>
              some { reader.advance 1 with
                opened := outer
                segment := some ⟨delimiter, reader.pos + 1⟩ }
          | _, _ =>
              match Delimiter.opening? (signs ahead) with
              | some delimiter =>
                  some { reader.advance delimiter.width with
                    segment := some ⟨delimiter, reader.pos⟩ }
              | none =>
                  let (kind, length) := lexemeInBytes (reader.bound bytes) ahead
                  let opened :=
                    if c = '(' then bracketOpened reader.opened
                    else if c = ')' then bracketClosed reader.opened
                    else reader.opened
                  some (({ reader with opened }.advance length).keep kind reader.pos)

def readSegment (segment : OpenSegment) : Reader :=
  let ahead := bytes.drop reader.pos
  let delimiter := segment.delimiter
  match signs ahead with
  | [] => reader.close segment
  | c :: text =>
      if c = '\\' then
        if delimiter.interpolates text then
          { (reader.close segment).advance (2 + delimiter.hashes) with
            opened := ⟨delimiter, 0⟩ :: reader.opened }
        else if delimiter.escapes text then
          let escaped := ahead.drop (1 + delimiter.hashes)
          reader.advance (1 + delimiter.hashes + if escaped = [] then 0 else charWidth escaped)
        else reader.advance 1
      else if c = '"' ∧ delimiter.closing.isPrefixOf (c :: text) then
        (reader.advance delimiter.width).close segment
      else if c = '\n' ∧ ¬ delimiter.multiline then reader.close segment
      else reader.advance (charWidth ahead)

def step : Option Reader :=
  match reader.segment with
  | none => reader.readCode bytes
  | some segment => some (reader.readSegment bytes segment)

/-- The reader comes to the end of the bytes and has found tokens at these places. -/
inductive Ends : Reader → List Span → Prop where
  | finish {reader : Reader} (h : reader.step bytes = none) : Ends reader reader.found.reverse
  | step {reader next : Reader} {spans : List Span} (h : reader.step bytes = some next)
      (ends : Ends next spans) : Ends reader spans

inductive Reaches : Reader → Reader → Prop where
  | refl (reader : Reader) : Reaches reader reader
  | step {reader next last : Reader} (h : reader.step bytes = some next)
      (reaches : Reaches next last) : Reaches reader last

/-! ## Steps in code -/

variable {bytes reader} {c : Char} {text : List Char} {delimiter : Delimiter}

theorem readCode_blank (hahead : bytes.drop reader.pos = encode (c :: text))
    (hblank : Text.isBlank c = true) : reader.readCode bytes = some (reader.advance c.utf8Size) := by
  obtain ⟨d, more, hsigns, -⟩ := exists_signs c text
  rw [readCode, hahead]
  dsimp only
  rw [hsigns, firstChar?_encode, Option.filter_some, if_pos hblank]

theorem readCode_closing {outer : List Interpolation}
    (hahead : bytes.drop reader.pos = encode (')' :: text))
    (hopened : reader.opened = ⟨delimiter, 0⟩ :: outer) :
    reader.readCode bytes = some { reader.advance 1 with
      opened := outer
      segment := some ⟨delimiter, reader.pos + 1⟩ } := by
  have hsigns : signs (encode (')' :: text)) = ')' :: spelled text := spelled_cons_of_isAscii rfl text
  rw [readCode, hahead]
  dsimp only
  rw [hsigns, firstChar?_encode, Option.filter_some, if_neg (by decide), hopened]
  rfl

theorem readCode_opening (hahead : bytes.drop reader.pos = encode (c :: text))
    (hcode : IsCode reader.opened c) (hopening : Delimiter.opening? (c :: text) = some delimiter) :
    reader.readCode bytes = some { reader.advance delimiter.width with
      segment := some ⟨delimiter, reader.pos⟩ } := by
  obtain ⟨d, more, hsigns, hsame⟩ := exists_signs c text
  have hopening' : Delimiter.opening? (d :: more) = some delimiter := by
    rw [← hsigns, ← hopening]
    exact opening?_spelled (c :: text)
  rw [readCode, hahead]
  dsimp only
  rw [hsigns, firstChar?_encode, Option.filter_some, if_neg (by simp [hcode.nonblank])]
  dsimp only
  split
  next delimiter outer hopened => exact absurd hopened (hcode.inside _ _ ((hsame ')' rfl).mp rfl))
  next => rw [hopening']

theorem readCode_lexeme (hahead : bytes.drop reader.pos = encode (c :: text))
    (hcode : IsCode reader.opened c) (hopening : Delimiter.opening? (c :: text) = none) :
    reader.readCode bytes =
      let found := lexemeAt (reader.bound bytes) c text
      let opened :=
        if c = '(' then bracketOpened reader.opened
        else if c = ')' then bracketClosed reader.opened
        else reader.opened
      some (({ reader with opened }.advance (bytesOf (c :: text.take found.2))).push found.1
        reader.pos) := by
  obtain ⟨d, more, hsigns, hsame⟩ := exists_signs c text
  have hopening' : Delimiter.opening? (d :: more) = none := by
    rw [← hsigns, ← hopening]
    exact opening?_spelled (c :: text)
  rw [readCode, hahead]
  dsimp only
  rw [hsigns, firstChar?_encode, Option.filter_some, if_neg (by simp [hcode.nonblank])]
  dsimp only
  split
  next delimiter outer hopened => exact absurd hopened (hcode.inside _ _ ((hsame ')' rfl).mp rfl))
  next =>
    rw [hopening', lexemeInBytes_encode]
    simp only [hsame '(' rfl, hsame ')' rfl]
    exact congrArg some (if_pos (Nat.lt_add_of_pos_right (bytesOf_pos (List.cons_ne_nil c _))))

/-! ## Steps in segments of literals -/

theorem readSegment_nil {segment : OpenSegment} (hahead : bytes.drop reader.pos = []) :
    reader.readSegment bytes segment = reader.close segment := by
  rw [readSegment, hahead]
  rfl

/-- A step in a segment, with what it asks for asked of characters. -/
theorem readSegment_cons {segment : OpenSegment}
    (hahead : bytes.drop reader.pos = encode (c :: text)) :
    reader.readSegment bytes segment =
      if c = '\\' then
        if segment.delimiter.interpolates text then
          { (reader.close segment).advance (2 + segment.delimiter.hashes) with
            opened := ⟨segment.delimiter, 0⟩ :: reader.opened }
        else if segment.delimiter.escapes text then
          reader.advance (1 + segment.delimiter.hashes +
            bytesOf ((text.drop segment.delimiter.hashes).take 1))
        else reader.advance 1
      else if c = '"' ∧ segment.delimiter.closing.isPrefixOf (c :: text) then
        (reader.advance segment.delimiter.width).close segment
      else if c = '\n' ∧ ¬ segment.delimiter.multiline then reader.close segment
      else reader.advance c.utf8Size := by
  obtain ⟨d, more, hsigns, hsame⟩ := exists_signs c text
  have hclosing : segment.delimiter.closing.isPrefixOf (d :: more) =
      segment.delimiter.closing.isPrefixOf (c :: text) := by
    rw [← hsigns]
    exact closing_isPrefixOf_spelled segment.delimiter (c :: text)
  rw [readSegment, hahead]
  dsimp only
  rw [hsigns, charWidth_encode]
  simp only [hsame '\\' rfl, hsame '"' rfl, hsame '\n' rfl, hclosing]
  split
  next hc =>
    subst hc
    have hmore : more = spelled text := by
      have hspelled := spelled_cons_of_isAscii (c := '\\') rfl text
      rw [spelled, hsigns] at hspelled
      exact (List.cons.inj hspelled).2
    rw [hmore, interpolates_spelled, escapes_spelled]
    split
    · rfl
    · split
      next hescapes =>
        rw [drop_escape hescapes]
        cases text.drop segment.delimiter.hashes with
        | nil => rfl
        | cons e rest =>
            have hne : encode (e :: rest) ≠ [] := by
              intro hnil
              have hlength := length_encode (e :: rest)
              have hpos := bytesOf_pos (List.cons_ne_nil e rest)
              rw [hnil, List.length_nil] at hlength
              omega
            rw [if_neg hne, charWidth_encode]
            rfl
      next => rfl
  next => rfl

theorem close_pos (segment : OpenSegment) : (reader.close segment).pos = reader.pos := by
  rw [Reader.close, keep]
  split <;> rfl

theorem close_opened (segment : OpenSegment) : (reader.close segment).opened = reader.opened := by
  rw [Reader.close, keep]
  split <;> rfl

end Reader

end CaptureLint.Token
