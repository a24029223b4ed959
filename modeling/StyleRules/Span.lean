import StyleRules.CodeUnit.Basic

/-!
# Spans

A half-open range of offsets into a text.
-/

namespace StyleRules

/-- The offsets `start ≤ i < stop`. -/
structure Span where
  start : Nat
  stop : Nat
  deriving DecidableEq, Repr

namespace Span

def length (span : Span) : Nat := span.stop - span.start

def isEmpty (span : Span) : Bool := span.start == span.stop

def slice (span : Span) (source : CodeUnits) : CodeUnits :=
  if span.start ≤ span.stop ∧ span.stop ≤ source.length then source.slice span.start span.stop
  else []

def cut (span : Span) (buffer : Buffer) : CodeUnits :=
  if span.start ≤ span.stop ∧ span.stop ≤ buffer.size then
    Buffer.slice buffer span.start span.stop
  else []

theorem length_slice_le (span : Span) (source : CodeUnits) :
    (span.slice source).length ≤ span.stop := by
  unfold slice
  split
  · rw [CodeUnits.length_slice]
    omega
  · exact Nat.zero_le _

/-- A span within the reach of offsets is cut out of what is read of a text. -/
theorem slice_addressable (span : Span) (source : CodeUnits)
    (h : span.stop ≤ CodeUnits.maxLength) :
    span.slice source.addressable = span.slice source := by
  have hstop : span.stop ≤ source.addressable.length ↔ span.stop ≤ source.length := by
    rw [CodeUnits.length_addressable]
    omega
  simp only [slice, hstop, source.slice_addressable _ h]

@[simp] theorem cut_toArray (span : Span) (source : CodeUnits) :
    span.cut source.toArray = span.slice source := by
  simp [cut, slice]

def text (span : Span) : String := toString span.start ++ ".." ++ toString span.stop

end Span

end StyleRules
