import AlphaMachine.Machine.Processor

/-!
# Layout of the processor state

Compiled code addresses the processor state through a base pointer and fixed byte offsets: the
integer registers first, then the floating registers, then the remaining fields.
-/

namespace AlphaMachine

namespace Layout

/-- Offset of an integer register. -/
def int (r : Reg) : Nat := 8 * r.val

/-- Offset of a floating register. -/
def fp (r : Reg) : Nat := 256 + 8 * r.val

/-- Offset of the pending trap code. -/
def pendingTrap : Nat := 560

/-- Offset of the data address of the pending trap. -/
def pendingTrapAddr : Nat := 568

/-- Offset of the byte that enables floating instructions. -/
def fpEnabled : Nat := 577

end Layout

end AlphaMachine
