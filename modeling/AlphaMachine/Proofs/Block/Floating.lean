import AlphaMachine.Exec.Float
import AlphaMachine.Proofs.Block.Operate
import AlphaMachine.Proofs.Float.Bits

/-!
# Compiled floating operations

The code of a floating instruction first checks that such instructions are enabled.  Operands are
loaded as images into `rax` and `rcx`; arithmetic moves them to `xmm0` and `xmm1` and leaves a
double in `xmm0`, which is rounded, if the result is single, and stored as an image
(`Native.storeDouble`).  `FloatOp.native_of_lower?` says that the code of an operation does what
the operation does.
-/

namespace AlphaMachine

open Host

theorem toUInt32_setLowDword (word : UInt64) (dword : UInt32) :
    (setLowDword word dword).toUInt32 = dword := by
  have hupper : (word &&& 0xFFFFFFFF00000000).toUInt32 = 0 := by
    rw [UInt64.toUInt32_and]
    exact UInt32.and_zero
  rw [setLowDword, UInt64.toUInt32_or, hupper, UInt32.toUInt32_toUInt64, UInt32.zero_or]

/-- **A number compares equal to zero exactly if all bits but its sign are zero.**  So shifting the
sign out tests for a zero. -/
theorem FloatImage.ofBits_beq_zero (image : UInt64) :
    (Float.ofBits image == 0) = isZero image := by
  have hzero : (0 : Float) = Float.ofBits 0 := by decide
  have hbeq : (Float.ofBits image == 0) =
      (Float.Model.UnpackedFloat.unpack .binary64 image.toBitVec).beq (.zero .positive) := by
    rw [hzero, ← unpack_pack_unpack]
    rfl
  let b : BitVec Float.Model.Format.binary64.numBits := image.toBitVec
  have hexponent : Float.Model.UnpackedFloat.unpackExponent b = 0#_ ↔
      image.toNat / 2 ^ 52 % 2 ^ 11 = 0 := by
    rw [← BitVec.toNat_inj]
    simp only [Float.Model.UnpackedFloat.unpackExponent, BitVec.toNat_cast,
      BitVec.extractLsb_toNat, Nat.shiftRight_eq_div_pow]
    rfl
  have hfraction : Float.Model.UnpackedFloat.unpackMantissa b = 0#_ ↔
      image.toNat % 2 ^ 52 = 0 := by
    rw [← BitVec.toNat_inj]
    simp only [Float.Model.UnpackedFloat.unpackMantissa, BitVec.toNat_cast,
      BitVec.extractLsb_toNat, Nat.shiftRight_zero]
    rfl
  have hlt := image.toNat_lt
  rw [hbeq, Bool.eq_iff_iff, beq_zero_iff, unpack_eq_zero_iff (by decide)]
  refine (and_congr hexponent hfraction).trans ?_
  rw [isZero_eq, decide_eq_true_eq]
  omega

namespace Block

variable {link : Linkage} {s : Host.State} {pc : UInt64} {fa fb : Reg} {rest : Code}

/-! ### Operands and results -/

/-- The state after the images of two registers were loaded. -/
def withImages (s : Host.State) (fa fb : Reg) : Host.State :=
  loaded (loaded s .rax fa (s.guest.cpu.readFp fa)) .rcx fb (s.guest.cpu.readFp fb)

theorem exec_loadImages (h : s.gpr .rbx = link.state) (fa fb : Reg) :
    exec link (loadFp .rax fa ++ (loadFp .rcx fb ++ rest)) s =
      exec link rest (withImages s fa fb) := by
  rw [exec_loadFp h, exec_loadFp (by exact h)]
  rfl

theorem same_withImages (s : Host.State) (fa fb : Reg) : Same s (withImages s fa fb) :=
  (same_loaded s (.inl rfl) fa _).trans (same_loaded _ (.inr (.inl rfl)) fb _)

@[simp] theorem unbound_storeDouble (label : Block.Label) (fc : Reg) (precision : Precision) :
    Unbound label (storeDouble fc precision) := by
  simp [storeDouble]

/-- The code ends with the store of a double in `xmm0`. -/
theorem Native.storeDouble (hs : Ready link s) (fc : Reg) (precision : Precision) {x : Float}
    (hx : (s.xmm 0).low = x.toBits) :
    Native link (Block.storeDouble fc precision) pc false s
      (s.guest.returnFp fc (FloatImage.ofResult precision x)) := by
  cases precision with
  | double =>
    have hsame : Same s (s.set .rax x.toBits) := ⟨⟨rfl, rfl, rfl, rfl⟩, rfl, rfl⟩
    have hsteps : steps link [.movqFromXmm .rax 0] s = some (s.set .rax x.toBits) := by
      rw [← hx]
      rfl
    exact .of_same hsame (exec_of_steps hsteps) (.storeFp (hs.same hsame) fc .rax rfl)
  | single =>
    obtain ⟨s', hsteps, hrax, hsame⟩ : ∃ s',
        steps link [.cvtsd2ss 0 0, .cvtss2sd 0 0, .movqFromXmm .rax 0] s = some s' ∧
        s'.gpr .rax = (Float32.ofBits (setLowDword (s.xmm 0).low
          (Float.ofBits (s.xmm 0).low).toFloat32.toBits).toUInt32).toFloat.toBits ∧ Same s s' :=
      ⟨_, rfl, rfl, ⟨⟨rfl, rfl, rfl, rfl⟩, rfl, rfl⟩⟩
    rw [toUInt32_setLowDword, hx, ofBits_toBits, ofBits_toBits_single] at hrax
    rw [← hsame.guest]
    exact .of_same hsame (exec_of_steps hsteps) (.storeFp (hs.same hsame) fc .rax hrax)

/-- Arithmetic on the images in `rax` and `rcx`. -/
theorem Native.floatArith (hs : Ready link s) (op : FloatArith) (precision : Precision) (fc : Reg)
    {a b : UInt64} (ha : s.gpr .rax = a) (hb : s.gpr .rcx = b) :
    Native link (instrs [.movqToXmm 0 .rax, .movqToXmm 1 .rcx, .sse op.sseOp .double 0 1] ++
        Block.storeDouble fc precision) pc false s
      (s.guest.returnFp fc (FloatImage.arith op precision a b)) := by
  obtain ⟨s', hsteps, hlow, hsame⟩ : ∃ s',
      steps link [.movqToXmm 0 .rax, .movqToXmm 1 .rcx, .sse op.sseOp .double 0 1] s = some s' ∧
      (s'.xmm 0).low =
        (op.sseOp.double (.ofBits (s.gpr .rax)) (.ofBits (s.gpr .rcx))).toBits ∧ Same s s' :=
    ⟨_, rfl, rfl, ⟨⟨rfl, rfl, rfl, rfl⟩, rfl, rfl⟩⟩
  have hresult : FloatImage.arith op precision a b =
      FloatImage.ofResult precision (op.sseOp.double (.ofBits a) (.ofBits b)) := by
    cases op <;> rfl
  rw [ha, hb] at hlow
  rw [hresult, ← hsame.guest]
  exact .of_same hsame (exec_of_steps hsteps) (.storeDouble (hs.same hsame) fc precision hlow)

/-- Combine the bits of two words under a mask. -/
theorem steps_combine (link : Linkage) (mask : UInt64) (s : Host.State) :
    ∃ s', steps link [.movImm .rdx mask, .alu .and .qword .rax .rdx, .not .qword .rdx,
        .alu .and .qword .rcx .rdx, .alu .or .qword .rax .rcx] s = some s' ∧
      s'.gpr .rax = (s.gpr .rax &&& mask ||| s.gpr .rcx &&& ~~~mask) ∧ Same s s' := by
  have hvalue : AluOp.sized .or .qword (AluOp.sized .and .qword (s.gpr .rax) mask)
      (AluOp.sized .and .qword (s.gpr .rcx) (AluOp.sized .xor .qword mask (-1))) =
        (s.gpr .rax &&& mask ||| s.gpr .rcx &&& ~~~mask) := by
    rw [AluOp.sized_not]
    rfl
  exact ⟨_, rfl, hvalue, ⟨⟨rfl, rfl, rfl, rfl⟩, rfl, rfl⟩⟩

theorem steps_copySign (link : Linkage) (bits : SignCopy) (s : Host.State) :
    ∃ s', steps link ((if bits = .negatedSign then [Instr.not .qword .rax] else []) ++
        [Instr.movImm .rdx bits.bits, .alu .and .qword .rax .rdx, .not .qword .rdx,
         .alu .and .qword .rcx .rdx, .alu .or .qword .rax .rcx]) s = some s' ∧
      s'.gpr .rax = FloatImage.copySign bits (s.gpr .rax) (s.gpr .rcx) ∧ Same s s' := by
  cases bits with
  | sign => exact steps_combine link FloatImage.sign s
  | signExponent => exact steps_combine link FloatImage.signExponent s
  | negatedSign =>
    let s₁ := s.set .rax (AluOp.sized .xor .qword (s.gpr .rax) (-1))
    have hs₁ : Same s s₁ := ⟨⟨rfl, rfl, rfl, rfl⟩, rfl, rfl⟩
    have hrax : s₁.gpr .rax = ~~~s.gpr .rax := AluOp.sized_not _
    obtain ⟨s', hsteps, hvalue, hsame⟩ := steps_combine link FloatImage.sign s₁
    rw [hrax] at hvalue
    exact ⟨s', hsteps, hvalue, hs₁.trans hsame⟩

end Block

open Block

variable {link : Linkage} {s : Host.State} {pc : UInt64} {fa fb fc : Reg} {code : Code}

namespace FloatOp

/-! ### Operations -/

/-- A division by a zero of either sign traps; the test shifts the sign out. -/
theorem native_div (hs : Ready link s) (precision : Precision) {a b : UInt64}
    (ha : s.gpr .rax = a) (hb : s.gpr .rcx = b) :
    Native link (instrs [.mov .qword .rdx .rcx, .shiftImm .shl .qword .rdx 1] ++
        (.jumpIf .e (.trap pc (some .floatDivideByZero)) ::
          (instrs [.movqToXmm 0 .rax, .movqToXmm 1 .rcx, .sse .div .double 0 1] ++
            storeDouble fc precision))) pc false s
      (if Float.ofBits b == 0 then s.guest.raise .floatDivideByZero pc
        else s.guest.returnFp fc (FloatImage.arith .div precision a b)) := by
  obtain ⟨s₁, hsteps, hflags, hrax, hrcx, hs₁⟩ : ∃ s₁,
      steps link [.mov .qword .rdx .rcx, .shiftImm .shl .qword .rdx 1] s = some s₁ ∧
      s₁.flags = OpSize.resultFlags .qword (s.gpr .rcx <<< 1) ∧ s₁.gpr .rax = s.gpr .rax ∧
      s₁.gpr .rcx = s.gpr .rcx ∧ Same s s₁ :=
    ⟨_, rfl, rfl, rfl, rfl, ⟨⟨rfl, rfl, rfl, rfl⟩, rfl, rfl⟩⟩
  have hcond : Cond.e.holds? s₁.flags = some (Float.ofBits b == 0) := by
    rw [hflags, hb, FloatImage.ofBits_beq_zero]
    exact FloatCondition.eq.holds?_cond b s.flags
  rw [← hs₁.guest]
  refine .of_same hs₁ (exec_of_steps hsteps) (.trapIf hcond (by simp) ?_)
  exact .floatArith (hs.same hs₁) .div precision fc (hrax.trans ha) (hrcx.trans hb)

theorem native_arith (op : FloatArith) (precision : Precision) (function : Nat)
    (h : (arith op precision).lower? pc fa fb fc = some code) (hs : Ready link s) :
    Native link code pc false s ((arith op precision).run pc fa fb function fc s.guest) := by
  cases h
  simp only [List.append_assoc]
  refine .checkFp hs (by split <;> simp) fun s₁ hs₁ => ?_
  have hs₂ := same_withImages s₁ fa fb
  have hready := (hs.same hs₁).same hs₂
  refine .of_same hs₂ (exec_loadImages (hs.same hs₁).state fa fb) ?_
  rw [← (hs₁.trans hs₂).guest]
  cases op with
  | div => exact native_div hready precision rfl rfl
  | add => exact .floatArith hready .add precision fc rfl rfl
  | sub => exact .floatArith hready .sub precision fc rfl rfl
  | mul => exact .floatArith hready .mul precision fc rfl rfl

theorem native_sqrt (precision : Precision) (function : Nat)
    (h : (sqrt precision).lower? pc fa fb fc = some code) (hs : Ready link s) :
    Native link code pc false s ((sqrt precision).run pc fa fb function fc s.guest) := by
  cases h
  simp only [List.append_assoc]
  refine .checkFp hs (by simp) fun s₁ hs₁ => ?_
  let b := s₁.guest.cpu.readFp fb
  have hs₂ := same_loaded s₁ (.inr (.inl rfl)) fb b
  obtain ⟨s₃, hsteps, hlow, hs₃⟩ : ∃ s₃,
      steps link [.movqToXmm 1 .rcx, .sse .sqrt .double 0 1] (loaded s₁ .rcx fb b) = some s₃ ∧
      (s₃.xmm 0).low = (Float.ofBits b).sqrt.toBits ∧ Same (loaded s₁ .rcx fb b) s₃ :=
    ⟨_, rfl, rfl, ⟨⟨rfl, rfl, rfl, rfl⟩, rfl, rfl⟩⟩
  have hsame := hs₂.trans hs₃
  have hexec : exec link (loadFp .rcx fb ++ (instrs [.movqToXmm 1 .rcx, .sse .sqrt .double 0 1] ++
      storeDouble fc precision)) s₁ = exec link (storeDouble fc precision) s₃ := by
    rw [exec_loadFp (hs.same hs₁).state]
    exact exec_of_steps hsteps
  have hstore : Native link (storeDouble fc precision) pc false s₃ _ :=
    .storeDouble ((hs.same hs₁).same hsame) fc precision hlow
  rw [hsame.guest] at hstore
  rw [← hs₁.guest]
  exact .of_same hsame hexec hstore

theorem native_copySign (bits : SignCopy) (function : Nat)
    (h : (copySign bits).lower? pc fa fb fc = some code) (hs : Ready link s) :
    Native link code pc false s ((copySign bits).run pc fa fb function fc s.guest) := by
  cases h
  simp only [List.append_assoc]
  refine .checkFp hs (by simp) fun s₁ hs₁ => ?_
  obtain ⟨s₂, hsteps, hrax, hs₂⟩ := steps_copySign link bits (withImages s₁ fa fb)
  have hsame := (same_withImages s₁ fa fb).trans hs₂
  have hstore : Native link (storeFp fc .rax) pc false s₂ _ :=
    .storeFp ((hs.same hs₁).same hsame) fc .rax hrax
  rw [hsame.guest] at hstore
  rw [← hs₁.guest]
  refine .of_same hsame ?_ hstore
  rw [exec_loadImages (hs.same hs₁).state]
  exact exec_of_steps hsteps

/-- **Compiled floating operations are correct.** -/
theorem native_of_lower? (op : FloatOp) (function : Nat)
    (h : op.lower? pc fa fb fc = some code) (hs : Ready link s) :
    Native link code pc false s (op.run pc fa fb function fc s.guest) := by
  cases op with
  | arith op precision => exact native_arith op precision function h hs
  | sqrt precision => exact native_sqrt precision function h hs
  | copySign bits => exact native_copySign bits function h hs
  | moveFromInt precision =>
    cases precision with
    | single => cases h
    | double =>
      cases h
      rw [List.append_assoc]
      refine .checkFp hs (by simp) fun s₁ hs₁ => ?_
      have hs₂ := same_loaded s₁ (.inl rfl) fa (s₁.guest.cpu.readInt fa)
      refine .of_same hs₂ (exec_loadInt (hs.same hs₁).state .rax fa) ?_
      rw [← (hs₁.trans hs₂).guest]
      exact .storeFp ((hs.same hs₁).same hs₂) fc .rax rfl
  | compare | roundSingle | toQuad | ofQuad | longToQuad | quadToLong | writeControl | readControl
  | moveIf => cases h

end FloatOp

end AlphaMachine
