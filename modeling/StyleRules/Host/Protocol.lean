import StyleRules.Declaration.Resolved

/-!
# The host protocol

A host hands over a text and a rule table as buffers and is called once for each declaration with
five integers of 32 bits. Offsets count code units.
-/

namespace StyleRules.Host

def version : Nat := 1

def maxInteger : Nat := 2147483647

/-- A number as the host sees it: one that is too large becomes the largest. -/
def clamp (n : Nat) : Nat := min n maxInteger

structure Call where
  start : Nat
  /-- Just past the value. -/
  stop : Nat
  /-- The number of the rule that applies, `0` for none. -/
  ruleId : Nat
  semicolonEnd : Nat
  /-- The number `1` for an important declaration and `0` for any other. -/
  isImportant : Nat
  deriving DecidableEq, Repr

namespace Call

def ofResolved (resolved : Resolved) : Call :=
  let declaration := resolved.declaration
  ⟨clamp declaration.name.start, clamp declaration.value.stop, clamp resolved.outcome.id.toNat,
    clamp declaration.semicolonEnd, if declaration.isImportant then 1 else 0⟩

end Call

/-- The calls that a scan makes, in order. A rejected table has no rules. -/
def calls (rules : Bytes) (source : CodeUnits) : List Call :=
  (Resolved.all (Table.ofBytes rules) source).map Call.ofResolved

def status (rules : Bytes) : Nat :=
  match Table.read rules with
  | .ok _ => 0
  | .error error => error.code

/-! ## Buffers -/

/-- What is seen of a host buffer, `none` being the null pointer: its first `length` bytes, none if
`length` is not positive. -/
def seen (buffer : Option Bytes) (length : Int) : Bytes :=
  match buffer with
  | none => []
  | some bytes => bytes.take length.toNat

def alignment : Nat := 8

structure Grant where
  size : Nat
  alignment : Nat
  deriving DecidableEq, Repr

/-- A buffer of `size` bytes; no buffer if `size` is not positive. -/
def grant? (size : Int) : Option Grant := if 0 < size then some ⟨size.toNat, alignment⟩ else none

end StyleRules.Host
