import AlphaMachine.Exec.Outcome
import AlphaMachine.Float.Image
import AlphaMachine.Isa.Operation

/-!
# Memory-format instructions

Loads, stores and address arithmetic, the jump group, and the barrier and counter group.  A load
into register 31 is a prefetch hint that touches nothing, except for load-locked instructions,
which always access memory.
-/

namespace AlphaMachine

/-- A displacement as a word. -/
def displacementWord (displacement : Int16) : UInt64 := displacement.toInt64.toUInt64

/-- The quadword boundary at or below an address. -/
def alignDown (address : UInt64) : UInt64 := address &&& ~~~7

/-- The access size of a locked access. -/
def Width.accessSize : Width → AccessSize
  | .long => .long
  | .quad => .quad

/-- The register form of a loaded value: longwords are sign-extended. -/
def AccessSize.extend (size : AccessSize) (value : UInt64) : UInt64 :=
  if size = .long then signExtendLong value else value

namespace MemoryOp

/-- Load `size` bytes at `address` into `ra`, unless `ra` is register 31. -/
def runLoad (size : AccessSize) (pc address : UInt64) (ra : Reg) (m : Machine) : Outcome :=
  if ra = Reg.zero then m.skip
  else m.loadThen pc address size fun value => m.returnInt ra (size.extend value)

/-- Load and reserve the granule. -/
def runLoadLocked (size : AccessSize) (pc address : UInt64) (ra : Reg) (m : Machine) : Outcome :=
  m.loadThen pc address size fun value =>
    { m with cpu := m.cpu.setLock address }.returnInt ra (size.extend value)

/-- Store while the reservation holds, report success in `ra` and drop the reservation. -/
def runStoreConditional (size : AccessSize) (pc address : UInt64) (ra : Reg) (m : Machine) :
    Outcome :=
  let cpu := { m.cpu with lockFlag := false }
  if m.cpu.lockFlag && m.cpu.lockAddr == Processor.granule address then
    match m.mem.storeFault? address size with
    | some fault => .trapped m (Trap.ofFault fault pc)
    | none => .done ⟨cpu.writeInt ra 1, m.mem.write address size (m.cpu.readInt ra)⟩ .next
  else .done ⟨cpu.writeInt ra 0, m.mem⟩ .next

/-- The effect of a memory-format instruction at `pc`. -/
def run (op : MemoryOp) (pc : UInt64) (ra rb : Reg) (displacement : Int16) (m : Machine) :
    Outcome :=
  let address := m.cpu.readInt rb + displacementWord displacement
  match op with
  | .loadAddress => m.returnInt ra address
  | .loadAddressHigh =>
    m.returnInt ra (m.cpu.readInt rb + displacementWord displacement <<< 16)
  | .load size => runLoad size pc address ra m
  | .loadUnaligned => runLoad .quad pc (alignDown address) ra m
  | .loadLocked width => runLoadLocked width.accessSize pc address ra m
  | .store size => m.storeInt pc address size (m.cpu.readInt ra)
  | .storeUnaligned => m.storeInt pc (alignDown address) .quad (m.cpu.readInt ra)
  | .storeConditional width => runStoreConditional width.accessSize pc address ra m
  | .floatLoad precision =>
    m.requireFp pc <|
      if ra = Reg.zero then m.skip
      else match precision with
        | .single => m.loadThen pc address .long fun value =>
            m.returnFp ra (FloatImage.ofSingle value.toUInt32)
        | .double => m.loadThen pc address .quad fun value => m.returnFp ra value
  | .floatStore .single =>
    m.requireFp pc
      (m.storeInt pc address .long (FloatImage.toSingle (m.cpu.readFp ra)).toUInt64)
  | .floatStore .double => m.requireFp pc (m.storeInt pc address .quad (m.cpu.readFp ra))
  | .jump => .done (m.writeInt ra (pc + 4)) (.jump (m.cpu.readInt rb &&& ~~~3))
  | .barrier => m.skip
  | .readCycles => m.returnInt ra m.cpu.cycles
  | .exchangeFlag value =>
    { m with cpu.intrFlag := value }.returnInt ra m.cpu.intrFlag.toUInt64
  | .privileged => m.raise .privilegeViolation pc

end MemoryOp

end AlphaMachine
