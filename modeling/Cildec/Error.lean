import Mathlib.Algebra.Group.Nat.Defs

/-!
# Errors and diagnostics (`src/error.rs`)

Every fallible entry point returns `Result`. `usize` is `Nat`: a slice is never
longer than `usizeMax`, so an addition that only guards a bounds check needs no
wrap-around. Where the source saturates, `satAdd` does.
-/

namespace Cildec

/-- `usize::MAX` of a 64-bit target. -/
def usizeMax : Nat := 2 ^ 64 - 1

/-- `usize::saturating_add`. -/
def satAdd (a b : Nat) : Nat := min (a + b) usizeMax

/-- `usize::checked_add`. -/
def checkedAdd (a b : Nat) : Option Nat := if a + b ≤ usizeMax then some (a + b) else none

/-- `usize::checked_mul`. -/
def checkedMul (a b : Nat) : Option Nat := if a * b ≤ usizeMax then some (a * b) else none

/-- `usize::checked_sub`. -/
def checkedSub (a b : Nat) : Option Nat := if b ≤ a then some (a - b) else none

/-- `u32::MAX`. -/
def u32Max : Nat := 2 ^ 32 - 1

/-- `u32::saturating_add`. -/
def satAdd32 (a b : Nat) : Nat := min (a + b) u32Max

/-- `usize::wrapping_neg`. -/
def wrappingNeg (a : Nat) : Nat := (2 ^ 64 - a % 2 ^ 64) % 2 ^ 64

/-- The classification of a decoding failure. -/
inductive ErrorKind where
  | truncated | malformed | unsupported | outOfRange
  | recursionLimit | invalidUtf8 | invalidPrefixTarget | unknownOpcode
  deriving DecidableEq, Repr

/-- A decoding failure: what went wrong, where, and in which structure. -/
structure Error where
  kind : ErrorKind
  offset : Option Nat
  context : String
  deriving DecidableEq, Repr

/-- `Result<T>`. -/
abbrev Result (α : Type) := Except Error α

namespace Error

/-- An error with an offset. -/
def new (kind : ErrorKind) (offset : Nat) (context : String) : Error :=
  ⟨kind, some offset, context⟩

/-- An error with no meaningful offset. -/
def detached (kind : ErrorKind) (context : String) : Error :=
  ⟨kind, none, context⟩

/-- A copy of the error with `base` added to any existing offset. -/
def rebase (e : Error) (base : Nat) : Error :=
  match e.offset with
  | some o => { e with offset := some (satAdd o base) }
  | none => { e with offset := some base }

end Error

/-- How tolerant a parser is of images that deviate from ECMA-335. -/
inductive Strictness where
  | strict | permissive
  deriving DecidableEq, Repr

def Strictness.isStrict : Strictness → Bool
  | .strict => true
  | .permissive => false

/-- The tolerated deviations the crate can report. -/
inductive DiagnosticCode where
  | fatHeaderSize | streamNamePadding | duplicateStreamName | streamRangeClamped
  | reservedTablePresent | tableNotSorted | versionStringPadding | cliHeaderSize
  | sectionRangeClamped | ehSectionSize | bitnessFlagsInconsistent
  | unknownHeapSizeBits
  deriving DecidableEq, Repr

/-- A deviation that was accepted in permissive mode. -/
structure Diagnostic where
  code : DiagnosticCode
  offset : Option Nat
  detail : Nat
  deriving DecidableEq, Repr

def Diagnostic.new (code : DiagnosticCode) (offset detail : Nat) : Diagnostic :=
  ⟨code, some offset, detail⟩

end Cildec
