import AlphaMachine.Block.Fragment
import AlphaMachine.Isa.Operation

/-!
# Host code of guest operations

Each operation has host code of its own or runs through the `interpret` helper.  Integer operands
are in `rax` and `rcx` and the result is in `rax`; effective addresses are in `rsi`, values to be
stored in `rdx`.  Floating operands are kept as images in general registers and only move to SSE
registers for arithmetic.
-/

namespace AlphaMachine

open Block Host

/-! ### Host counterparts -/

/-- The operand size. -/
def Width.opSize : Width → OpSize
  | .long => .dword
  | .quad => .qword

/-- The host operation. -/
def AddSub.aluOp : AddSub → AluOp
  | .add => .add
  | .sub => .sub

/-- The host operation. -/
def Logic.aluOp : Logic → AluOp
  | .and => .and
  | .or => .or
  | .xor => .xor

/-- The host operation. -/
def Shift.shiftOp : Shift → ShiftOp
  | .left => .shl
  | .right => .shr
  | .rightArith => .sar

/-- The host operation. -/
def FloatArith.sseOp : FloatArith → SseOp
  | .add => .add
  | .sub => .sub
  | .mul => .mul
  | .div => .div

/-- The condition that a compare leaves in the flags. -/
def Comparison.cond : Comparison → Cond
  | .eq => .e
  | .lt => .l
  | .le => .le
  | .ult => .b
  | .ule => .be

/-- Set the flags from the register under a condition. -/
def Condition.test (reg : Gpr) : Condition → Instr
  | .lowSet | .lowClear => .aluImm .test .dword reg 1
  | _ => .alu .test .qword reg reg

/-- The condition that `test` leaves in the flags. -/
def Condition.cond : Condition → Cond
  | .eq | .lowClear => .e
  | .ne | .lowSet => .ne
  | .lt => .l
  | .ge => .ge
  | .le => .le
  | .gt => .g

/-- Set the flags from the image in `rax`.  Shifting out the sign tells zeros of either sign, a
signed test tells the strictly positive images, and an unsigned compare with the image of negative
zero tells the strictly negative ones. -/
def FloatCondition.test : FloatCondition → List Instr
  | .eq | .ne => [.shiftImm .shl .qword .rax 1]
  | .gt | .le => [.alu .test .qword .rax .rax]
  | .lt | .ge => [.movImm .rcx FloatImage.sign, .alu .cmp .qword .rax .rcx]

/-- The condition that `test` leaves in the flags. -/
def FloatCondition.cond : FloatCondition → Cond
  | .eq => .e
  | .ne => .ne
  | .gt => .g
  | .le => .le
  | .lt => .a
  | .ge => .be

/-! ### Integer operations -/

/-- Load the operands of an operate instruction. -/
def Block.loadOperands (ra : Reg) (rb : Operand) : Code := loadInt .rax ra ++ loadOperand .rcx rb

/-- Store the result of an operate instruction; longword results are sign-extended. -/
def Block.storeResult (rc : Reg) : Width → Code
  | .long => instrs [.movsx .dword .rax .rax] ++ storeInt rc .rax
  | .quad => storeInt rc .rax

/-- The mode argument of the overflow helper: bit 0 for a difference, bit 1 for longwords. -/
def Block.overflowMode (op : AddSub) (width : Width) : UInt64 :=
  (if op = .sub then 1 else 0) ||| (if width = .long then 2 else 0)

/-- The host code of an integer operation, if it has one. -/
def OperateOp.lower? (op : OperateOp) (pc : UInt64) (ra : Reg) (rb : Operand) (rc : Reg) :
    Option Code :=
  let native (width : Width) (l : List Instr) : Option Code :=
    some (loadOperands ra rb ++ instrs l ++ storeResult rc width)
  match op with
  | .arith op scale width =>
    native width <|
      (if scale = 0 then [] else [.shiftImm .shl .qword .rax scale.toUInt8]) ++
        [.alu op.aluOp width.opSize .rax .rcx]
  | .arithChecked op width =>
    some <| loadOperands ra rb ++
      instrs [.mov .qword .rdi .rax, .alu op.aluOp .qword .rdi .rcx, .mov .qword .rsi .rax,
        .mov .qword .rdx .rcx, .movImm .rcx (overflowMode op width)] ++
      call .overflows ++
      [.instr (.alu .test .qword .rax .rax), .jumpIf .ne (.trap pc (some .integerOverflow))] ++
      loadOperands ra rb ++ instrs [.alu op.aluOp width.opSize .rax .rcx] ++ storeResult rc width
  | .compare relation =>
    native .quad [.alu .cmp .qword .rax .rcx, .setcc relation.cond .rax, .movzx .byte .rax .rax]
  | .compareBytes =>
    native .quad
      [.movqToXmm 0 .rax, .movqToXmm 1 .rcx, .pmaxub 1 0, .pcmpeqb 1 0, .pmovmskb .rax 1,
       .aluImm .and .dword .rax 0xFF]
  | .logic op complement =>
    native .quad ((if complement then [.not .qword .rcx] else []) ++
      [.alu op.aluOp .qword .rax .rcx])
  | .moveIf condition =>
    if rc = Reg.zero then some []
    else some <| loadInt .rax ra ++ loadInt .rdx rc ++ loadOperand .rcx rb ++
      instrs [condition.test .rax, .cmov condition.cond .rdx .rcx] ++ storeInt rc .rdx
  | .featureMask =>
    some <| loadOperand .rax rb ++
      instrs [.aluImm .and .qword .rax (~~~Integer.features).toUInt32.toInt32] ++
      storeInt rc .rax
  | .implementationVersion => some (instrs [.movImm .rax Integer.version] ++ storeInt rc .rax)
  | .shift direction => native .quad [.shiftCl direction.shiftOp .qword .rax]
  | .multiply width => native width [.imul width.opSize .rax .rcx]
  | .multiplyHigh => native .quad [.mulWide .rcx, .mov .qword .rax .rdx]
  | .multiplyChecked width =>
    some <| loadOperands ra rb ++
      [.instr (.imul width.opSize .rax .rcx), .jumpIf .o (.trap pc (some .integerOverflow))] ++
      storeResult rc width
  | .signExtendByte =>
    some (loadOperand .rcx rb ++ instrs [.movsx .byte .rax .rcx] ++ storeInt rc .rax)
  | .signExtendWord =>
    some (loadOperand .rcx rb ++ instrs [.movsx .word .rax .rcx] ++ storeInt rc .rax)
  | .moveFromFloat .double => some (checkFp pc ++ loadFp .rax ra ++ storeInt rc .rax)
  | .zap | .zapNot | .byteField .. | .countOnes | .countLeadingZeros | .countTrailingZeros
  | .moveFromFloat .single => none

/-! ### Floating operations -/

/-- Store the double in `xmm0`, rounded to the precision. -/
def Block.storeDouble (fc : Reg) (precision : Precision) : Code :=
  instrs ((if precision = .single then [.cvtsd2ss 0 0, .cvtss2sd 0 0] else []) ++
    [.movqFromXmm .rax 0]) ++ storeFp fc .rax

/-- The bits that a sign copy takes from the first operand. -/
def SignCopy.bits : SignCopy → UInt64
  | .sign | .negatedSign => FloatImage.sign
  | .signExponent => FloatImage.signExponent

/-- The host code of a floating operation, if it has one. -/
def FloatOp.lower? (op : FloatOp) (pc : UInt64) (fa fb fc : Reg) : Option Code :=
  match op with
  | .moveFromInt .double => some (checkFp pc ++ loadInt .rax fa ++ storeFp fc .rax)
  | .sqrt precision =>
    some <| checkFp pc ++ loadFp .rcx fb ++
      instrs [.movqToXmm 1 .rcx, .sse .sqrt .double 0 1] ++ storeDouble fc precision
  | .arith op precision =>
    let checkDivisor : Code :=
      if op = .div then
        instrs [.mov .qword .rdx .rcx, .shiftImm .shl .qword .rdx 1] ++
          [.jumpIf .e (.trap pc (some .floatDivideByZero))]
      else []
    some <| checkFp pc ++ loadFp .rax fa ++ loadFp .rcx fb ++ checkDivisor ++
      instrs [.movqToXmm 0 .rax, .movqToXmm 1 .rcx, .sse op.sseOp .double 0 1] ++
      storeDouble fc precision
  | .copySign bits =>
    some <| checkFp pc ++ loadFp .rax fa ++ loadFp .rcx fb ++
      instrs ((if bits = .negatedSign then [.not .qword .rax] else []) ++
        [.movImm .rdx bits.bits, .alu .and .qword .rax .rdx, .not .qword .rdx,
         .alu .and .qword .rcx .rdx, .alu .or .qword .rax .rcx]) ++
      storeFp fc .rax
  | .moveFromInt .single | .compare _ | .roundSingle | .toQuad | .ofQuad _ | .longToQuad
  | .quadToLong | .writeControl | .readControl | .moveIf _ => none

/-! ### Memory operations -/

/-- `dst = rb + offset`. -/
def Block.address (dst : Gpr) (rb : Reg) (offset : Int32) : Code :=
  loadInt dst rb ++ if offset = 0 then [] else instrs [.aluImm .add .qword dst offset]

/-- The effective address in `rsi`, moved down to a quadword boundary on request. -/
def Block.effectiveAddress (rb : Reg) (displacement : Int16) (alignDown : Bool) : Code :=
  address .rsi rb displacement.toInt32 ++
    if alignDown then instrs [.aluImm .and .qword .rsi (-8)] else []

/-- Load guest memory into `rax`. -/
def Block.loadMemory (pc : UInt64) (rb : Reg) (displacement : Int16) (size : AccessSize)
    (alignDown : Bool) : Code :=
  effectiveAddress rb displacement alignDown ++
    instrs [.mov .qword .rdi .r12, .movImm .rdx size.bytes.toUInt64] ++ call .load ++
    checkPending pc

/-- Store `rdx` to guest memory. -/
def Block.storeMemory (pc : UInt64) (rb : Reg) (displacement : Int16) (size : AccessSize)
    (alignDown : Bool) : Code :=
  effectiveAddress rb displacement alignDown ++
    instrs [.mov .qword .rdi .r12, .movImm .rcx size.bytes.toUInt64] ++ call .store ++
    checkPending pc

/-- An integer load; a load into register 31 does nothing. -/
def Block.loadToInt (pc : UInt64) (ra rb : Reg) (displacement : Int16) (size : AccessSize)
    (alignDown : Bool) : Code :=
  if ra = Reg.zero then []
  else loadMemory pc rb displacement size alignDown ++
    (if size = .long then instrs [.movsx .dword .rax .rax] else []) ++ storeInt ra .rax

/-- The host code of a memory operation, if it has one. -/
def MemoryOp.lower? (op : MemoryOp) (pc : UInt64) (ra rb : Reg) (displacement : Int16) :
    Option Code :=
  match op with
  | .loadAddress => some (address .rax rb displacement.toInt32 ++ storeInt ra .rax)
  | .loadAddressHigh => some (address .rax rb (displacement.toInt32 <<< 16) ++ storeInt ra .rax)
  | .load size => some (loadToInt pc ra rb displacement size false)
  | .loadUnaligned => some (loadToInt pc ra rb displacement .quad true)
  | .store size => some (loadInt .rdx ra ++ storeMemory pc rb displacement size false)
  | .storeUnaligned => some (loadInt .rdx ra ++ storeMemory pc rb displacement .quad true)
  | .floatLoad .double =>
    some <| checkFp pc ++
      if ra = Reg.zero then []
      else loadMemory pc rb displacement .quad false ++ storeFp ra .rax
  | .floatStore .double =>
    some (checkFp pc ++ loadFp .rdx ra ++ storeMemory pc rb displacement .quad false)
  | .jump =>
    some <| loadInt .rax rb ++
      instrs [.aluImm .and .qword .rax (-4), .movImm .rcx (pc + 4)] ++ storeInt ra .rcx ++
      [.jump .exit]
  | .barrier => some []
  | .loadLocked _ | .storeConditional _ | .floatLoad .single | .floatStore .single
  | .readCycles | .exchangeFlag _ | .privileged => none

/-! ### Branches -/

/-- The host code of a branch. -/
def BranchOp.lower (op : BranchOp) (pc : UInt64) (ra : Reg) (displacement : Int) : Code :=
  let target := branchTarget pc displacement
  match op with
  | .link => instrs [.movImm .rax (pc + 4)] ++ storeInt ra .rax ++ exitTo target
  | .onInt condition =>
    loadInt .rax ra ++ instrs [condition.test .rax] ++ branchOn pc condition.cond target
  | .onFloat condition =>
    checkFp pc ++ loadFp .rax ra ++ instrs condition.test ++ branchOn pc condition.cond target

/-! ### All operations -/

/-- The host code of an operation for the instruction it was found for, if it has one. -/
def Operation.lower? (op : Operation) (pc : UInt64) (i : Instruction) : Option Code :=
  match op, i with
  | .operate op, .operate _ ra rb _ rc => op.lower? pc ra rb rc
  | .float op, .floatOperate _ fa fb _ fc => op.lower? pc fa fb fc
  | .memory op, .memory _ ra rb displacement => op.lower? pc ra rb displacement
  | .branch op, .branch _ ra displacement => some (op.lower pc ra displacement)
  | _, _ => none

end AlphaMachine
