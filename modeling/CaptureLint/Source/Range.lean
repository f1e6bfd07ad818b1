/-!
# Ranges of a text

Two half-open ranges that must not be confused: one counts UTF-8 bytes, the other characters.  They
are two types, so that a range only crosses over through a text (`CaptureLint.Source`).
-/

namespace CaptureLint

structure ByteRange where
  start : Nat
  length : Nat
deriving DecidableEq, Repr

structure CharRange where
  start : Nat
  length : Nat
deriving DecidableEq, Repr

namespace ByteRange

def stop (range : ByteRange) : Nat := range.start + range.length

def between (start stop : Nat) : ByteRange := ⟨start, stop - start⟩

@[simp] theorem stop_between {start stop : Nat} (h : start ≤ stop) :
    (between start stop).stop = stop := by
  simp only [ByteRange.stop, between]
  omega

end ByteRange

namespace CharRange

def stop (range : CharRange) : Nat := range.start + range.length

def between (start stop : Nat) : CharRange := ⟨start, stop - start⟩

@[simp] theorem stop_between {start stop : Nat} (h : start ≤ stop) :
    (between start stop).stop = stop := by
  simp only [CharRange.stop, between]
  omega

end CharRange

end CaptureLint
