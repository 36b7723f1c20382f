import Mathlib.Data.BitVec

/-!
The errors of `error.h` and the I/O flags of `defs.h`.
-/
namespace Starter

/-- `STError`. -/
inductive StErrorCode
  | invalidValue
  | invalidResponse
  | notImplemented
  | notConnected
  | system
  | undefinedIdentifier
deriving DecidableEq, Repr

/-- A `GError` of the domain `ST_ERROR`. -/
structure StError where
  code : StErrorCode
  message : String
deriving DecidableEq, Repr

/-- The `flags` word of an input or output, a `guint64`. -/
abbrev IoFlags := BitVec 64

def stIoFlagNull : IoFlags := 0x0000000000000000
def stIoFlagManualOverride : IoFlags := 0x0000000000000001
def stIoFlagNoHistory : IoFlags := 0x0000000000000002
def stIoFlagUsr1 : IoFlags := 0x1000000000000000
def stIoFlagUsr2 : IoFlags := 0x2000000000000000
def stIoFlagUsr3 : IoFlags := 0x4000000000000000
def stIoFlagUsr4 : IoFlags := 0x8000000000000000
def stIoFlagUsrMask : IoFlags := 0xF000000000000000

/-- `st_io_flag_bit_is_usr`: one bit, and one of the mask. -/
def stIoFlagBitIsUsr (bit : IoFlags) : Bool :=
  bit != 0 && (bit &&& stIoFlagUsrMask) == bit && (bit &&& (bit - 1)) == 0

/-- `st_io_flag_bit_name`. -/
def stIoFlagBitName (bit : IoFlags) : String :=
  if bit = stIoFlagUsr1 then "USR1"
  else if bit = stIoFlagUsr2 then "USR2"
  else if bit = stIoFlagUsr3 then "USR3"
  else if bit = stIoFlagUsr4 then "USR4"
  else if bit = stIoFlagManualOverride then "MANUAL_OVERRIDE"
  else if bit = stIoFlagNoHistory then "NO_HISTORY"
  else "?"

/-- The expression `flags & bit` where C expects a truth value. -/
def hasFlag (flags bit : IoFlags) : Bool := (flags &&& bit) != 0

/-- The flags word with a bit set or cleared, as `assign_apply_flag` computes it. -/
def writeFlag (flags bit : IoFlags) (on : Bool) : IoFlags := if on then flags ||| bit else flags &&& ~~~bit

/-- Writing a bit leaves every other bit of the word. -/
theorem writeFlag_others (flags bit : IoFlags) (on : Bool) : writeFlag flags bit on &&& ~~~bit = flags &&& ~~~bit := by
  unfold writeFlag
  split
  · ext i
    simp only [BitVec.getElem_and, BitVec.getElem_or, BitVec.getElem_not]
    cases flags[i] <;> cases bit[i] <;> rfl
  · ext i
    simp only [BitVec.getElem_and, BitVec.getElem_not]
    cases flags[i] <;> cases bit[i] <;> rfl

theorem stIoFlagBitIsUsr_ne_zero {bit : IoFlags} (usr : stIoFlagBitIsUsr bit = true) : bit ≠ 0 := by
  rintro rfl
  exact absurd usr (by decide)

end Starter
