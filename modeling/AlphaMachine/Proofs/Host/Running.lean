import AlphaMachine.Proofs.Host.Decoding
import Mathlib.Tactic.Common

/-!
# Running code

Code runs from its bytes.  `Host.fetch?` reads the instruction at an offset and finds the offset
behind it, and `Host.Image.Step` says what can happen next: a call may do whatever a callee is
allowed to do (`Host.State.Returned`), and a conditional jump may go either way.

`Host.Image.Returns` is what one wants to know of such code: every run comes to a return within so
many instructions and never gets stuck before.  It follows from one lemma for each kind of
instruction (`Host.Image.Returns.of_instr` and the following), and what it says of runs is
`Host.Image.Returns.run`.
-/

namespace AlphaMachine

namespace Host

/-! ### Reading instructions -/

/-- The instruction at an offset, and the offset behind it. -/
def fetch? (code : CodeBuffer) (offset : Nat) : Option (Op × Nat) := do
  let (e, rest) ← parse (code.bytes.toList.drop offset)
  return (← e.op?, code.size - rest.length)

/-- Where instructions begin and end, if they are read one after the other from the first byte. -/
inductive Boundary (code : CodeBuffer) : Nat → Prop where
  /-- The first instruction begins with the first byte. -/
  | first : Boundary code 0
  /-- An instruction ends where the next one begins. -/
  | next {offset next : Nat} {op : Op} (h : Boundary code offset)
    (hop : fetch? code offset = some (op, next)) : Boundary code next

theorem fetch?_of_reads {code : CodeBuffer} {before bytes after : List UInt8} {op : Op}
    (hcode : code.bytes.toList = before ++ (bytes ++ after)) (hreads : Reads bytes op) :
    fetch? code before.length = some (op, before.length + bytes.length) := by
  obtain ⟨e, hparse, hop, -⟩ := hreads after
  have hsize : code.size - after.length = before.length + bytes.length := by
    have hlength := congrArg List.length hcode
    simp only [Array.length_toList, List.length_append] at hlength
    rw [CodeBuffer.size]
    omega
  simp only [fetch?, hcode, List.drop_left, hparse, hop, hsize, Option.bind_eq_bind,
    Option.bind_some, Option.pure_def]

theorem lt_of_fetch? {code : CodeBuffer} {offset : Nat} {op : Op × Nat}
    (h : fetch? code offset = some op) : offset < code.size := by
  by_contra hle
  have hnil : code.bytes.toList.drop offset = [] := by
    rw [List.drop_eq_nil_iff]
    exact Nat.le_of_not_lt hle
  rw [fetch?, hnil] at h
  cases h

/-! ### Instructions -/

/-- An environment without anything to call. -/
def alone (base : UInt64) : Environment := ⟨base, fun _ _ => none⟩

/-- The general registers that an instruction sets; a call sets those that a callee need not
keep. -/
def Instr.written : Instr → List Gpr
  | .callReg _ => [.rax, .rcx, .rdx, .rsi, .rdi, .r8, .r9, .r10, .r11]
  | .ret | .push _ => [.rsp]
  | .pop reg => [.rsp, reg]
  | .alu op _ dst _ | .aluImm op _ dst _ => if op.writes then [dst] else []
  | .mulWide _ => [.rax, .rdx]
  | .movImm dst _ | .not _ dst | .neg _ dst | .shiftImm _ _ dst _ | .shiftCl _ _ dst
  | .imul _ dst _ | .movsx _ dst _ | .movzx _ dst _ | .setcc _ dst | .cmov _ dst _ | .load dst _ _
  | .movqFromXmm dst _ | .pmovmskb dst _ => [dst]
  | .store .. | .storeImm .. | .cmpMem .. | .cmpMemByte .. | .movqToXmm .. | .movsd .. | .sse ..
  | .cvtsd2ss .. | .cvtss2sd .. | .ucomisd .. | .pmaxub .. | .pcmpeqb .. => []

/-- Whether an instruction writes to the processor state. -/
def Instr.stores : Instr → Bool
  | .store .. | .storeImm .. => true
  | _ => false

/-- Whether an instruction is a call. -/
def Instr.calls : Instr → Bool
  | .callReg _ => true
  | _ => false

section Instructions

variable {base : UInt64} {i j : Instr} {s s' : State}

/-- Instructions that are the same for the processor do the same. -/
theorem Instr.Same.step_eq (h : i.Same j) (env : Environment) (s : State) :
    j.step env s = i.step env s := by
  cases h with
  | refl => rfl
  | constant dst imm => rfl

/-- Other registers than those that are set stay as they are. -/
theorem Instr.gpr_of_step (h : i.step (alone base) s = some s') {r : Gpr} (hr : r ∉ i.written) :
    s'.gpr r = s.gpr r := by
  cases i with
  | callReg reg | ret => cases h
  | push reg =>
    cases h
    exact if_neg (List.ne_of_not_mem_cons hr)
  | pop reg =>
    cases h
    simp only [written, List.mem_cons, List.not_mem_nil, or_false, not_or] at hr
    simp only [State.set, hr.1, hr.2, if_false]
  | alu op size dst src =>
    cases h
    simp only [written] at hr
    split
    · next hop =>
      rw [if_pos hop] at hr
      exact if_neg (List.ne_of_not_mem_cons hr)
    · rfl
  | aluImm op size dst imm =>
    cases h
    simp only [written] at hr
    split
    · next hop =>
      rw [if_pos hop] at hr
      exact if_neg (List.ne_of_not_mem_cons hr)
    · rfl
  | mulWide src =>
    cases h
    simp only [written, List.mem_cons, List.not_mem_nil, or_false, not_or] at hr
    simp only [State.set, hr.1, hr.2, if_false]
  | setcc cond reg =>
    obtain ⟨holds, -, rfl⟩ := Option.map_eq_some_iff.1 h
    exact if_neg (List.ne_of_not_mem_cons hr)
  | cmov cond dst src =>
    obtain ⟨holds, -, rfl⟩ := Option.map_eq_some_iff.1 h
    split
    · exact if_neg (List.ne_of_not_mem_cons hr)
    · rfl
  | load dst b disp =>
    obtain ⟨value, -, rfl⟩ := Option.map_eq_some_iff.1 h
    exact if_neg (List.ne_of_not_mem_cons hr)
  | store b disp src | storeImm b disp imm =>
    obtain ⟨field, -, rfl⟩ := Option.map_eq_some_iff.1 h
    rfl
  | cmpMem b disp imm | cmpMemByte b disp imm =>
    obtain ⟨value, -, rfl⟩ := Option.map_eq_some_iff.1 h
    rfl
  | movqToXmm | movsd | sse | cvtsd2ss | cvtss2sd | ucomisd | pmaxub | pcmpeqb =>
    cases h
    rfl
  | _ =>
    cases h
    exact if_neg (List.ne_of_not_mem_cons hr)

/-- Only stores change the guest machine. -/
theorem Instr.guest_of_step (h : i.step (alone base) s = some s') (hstores : i.stores = false) :
    s'.guest = s.guest := by
  cases i with
  | callReg reg | ret => cases h
  | store b disp src | storeImm b disp imm => cases hstores
  | alu op size dst src | aluImm op size dst imm =>
    cases h
    dsimp only
    split <;> rfl
  | setcc cond reg =>
    obtain ⟨holds, -, rfl⟩ := Option.map_eq_some_iff.1 h
    rfl
  | cmov cond dst src =>
    obtain ⟨holds, -, rfl⟩ := Option.map_eq_some_iff.1 h
    split <;> rfl
  | load dst b disp | cmpMem b disp imm | cmpMemByte b disp imm =>
    obtain ⟨value, -, rfl⟩ := Option.map_eq_some_iff.1 h
    rfl
  | _ =>
    cases h
    rfl

end Instructions

/-! ### Steps -/

/-- The general registers that a callee keeps. -/
def Gpr.preserved : List Gpr := [.rbx, .rbp, .rsp, .r12, .r13, .r14, .r15]

/-- What a call may leave behind: the callee keeps some registers, and the stack from the stack
pointer up.  Everything else is arbitrary. -/
structure State.Returned (s s' : State) : Prop where
  /-- The registers. -/
  gpr : ∀ r ∈ Gpr.preserved, s'.gpr r = s.gpr r
  /-- The half of the address space from the stack pointer up. -/
  stack : ∀ distance : UInt64, distance < 0x8000000000000000 →
    s'.stack (s.gpr .rsp + distance) = s.stack (s.gpr .rsp + distance)

theorem State.Returned.refl (s : State) : s.Returned s := ⟨fun _ _ => rfl, fun _ _ => rfl⟩

/-- Code that is ready to run, and what it runs in. -/
structure Image where
  /-- The bytes. -/
  code : CodeBuffer
  /-- The address of the processor state. -/
  base : UInt64
  /-- Where there is something to call. -/
  callable : UInt64 → Prop

/-- A run is somewhere in the code, in some state. -/
structure Config where
  /-- The offset of the next instruction. -/
  offset : Nat
  /-- The state. -/
  state : State

namespace Image

variable {image : Image}

/-- What can happen next.  Nothing can happen after a return, at bytes that are no instruction, or
where an instruction has no defined result. -/
inductive Step (image : Image) : Config → Config → Prop where
  /-- An instruction goes on to the next. -/
  | instr {offset next : Nat} {i : Instr} {s s' : State}
    (hop : fetch? image.code offset = some (.instr i, next))
    (hstep : i.step (alone image.base) s = some s') : Step image ⟨offset, s⟩ ⟨next, s'⟩
  /-- A call comes back. -/
  | call {offset next : Nat} {reg : Gpr} {s s' : State}
    (hop : fetch? image.code offset = some (.instr (.callReg reg), next))
    (hcallable : image.callable (s.gpr reg)) (hreturned : s.Returned s') :
    Step image ⟨offset, s⟩ ⟨next, s'⟩
  /-- A jump goes as far as it says. -/
  | jump {offset next target : Nat} {distance : Int32} {s : State}
    (hop : fetch? image.code offset = some (.jump distance, next))
    (htarget : (next : Int) + distance.toInt = target) : Step image ⟨offset, s⟩ ⟨target, s⟩
  /-- A conditional jump may be taken. -/
  | taken {offset next target : Nat} {cond : Cond} {distance : Int32} {s : State}
    (hop : fetch? image.code offset = some (.jumpIf cond distance, next))
    (htarget : (next : Int) + distance.toInt = target) : Step image ⟨offset, s⟩ ⟨target, s⟩
  /-- A conditional jump may be passed. -/
  | passed {offset next : Nat} {cond : Cond} {distance : Int32} {s : State}
    (hop : fetch? image.code offset = some (.jumpIf cond distance, next)) :
    Step image ⟨offset, s⟩ ⟨next, s⟩

/-- As many steps, one after the other. -/
inductive Run (image : Image) : Nat → Config → Config → Prop where
  | nil (c : Config) : Run image 0 c c
  | cons {n : Nat} {c c' c'' : Config} (hstep : image.Step c c') (hrun : Run image n c' c'') :
    Run image (n + 1) c c''

/-- The next instruction is a return. -/
def AtReturn (image : Image) (c : Config) : Prop :=
  ∃ next, fetch? image.code c.offset = some (.instr .ret, next)

/-- The next instruction is a call. -/
def AtCall (image : Image) (c : Config) : Prop :=
  ∃ reg next, fetch? image.code c.offset = some (.instr (.callReg reg), next)

theorem AtReturn.not_step {c c' : Config} (h : image.AtReturn c) : ¬ image.Step c c' := by
  obtain ⟨next, hret⟩ := h
  intro hstep
  cases hstep with
  | instr hop hstep =>
    rw [hret] at hop
    cases hop
    cases hstep
  | call hop | jump hop | taken hop | passed hop =>
    rw [hret] at hop
    cases hop

/-! ### Runs that return -/

/-- Every run from here comes to a return within `limit` instructions and cannot get stuck before.
All that it passes through satisfies `I`, all its steps satisfy `J`, and `post` holds where it
returns. -/
inductive Returns (image : Image) (I : Config → Prop) (J : Config → Config → Prop)
    (post : State → Prop) : Nat → Config → Prop where
  /-- This is a return. -/
  | ret {limit : Nat} {c : Config} (h : I c) (hret : image.AtReturn c) (hpost : post c.state) :
    Returns image I J post limit c
  /-- There is a next step, and all next steps lead there. -/
  | step {limit : Nat} {c : Config} (h : I c) (hcan : ∃ c', image.Step c c')
    (hsteps : ∀ c', image.Step c c' → J c c')
    (hnext : ∀ c', image.Step c c' → Returns image I J post limit c') :
    Returns image I J post (limit + 1) c

namespace Returns

variable {I : Config → Prop} {J : Config → Config → Prop} {post : State → Prop}
  {limit n offset next : Nat} {c c' : Config} {s : State}

theorem mono (h : image.Returns I J post limit c) {limit' : Nat} (hle : limit ≤ limit') :
    image.Returns I J post limit' c := by
  induction h generalizing limit' with
  | ret h hret hpost => exact .ret h hret hpost
  | step h hcan hsteps _ ih =>
    obtain ⟨k, rfl⟩ := Nat.exists_eq_add_of_le' hle
    rw [← Nat.add_assoc]
    exact .step h hcan hsteps fun c' hstep => ih c' hstep (Nat.le_add_left ..)

theorem imp {post' : State → Prop} (h : image.Returns I J post limit c)
    (hpost : ∀ s, post s → post' s) : image.Returns I J post' limit c := by
  induction h with
  | ret h hret hc => exact .ret h hret (hpost _ hc)
  | step h hcan hsteps _ ih => exact .step h hcan hsteps ih

/-- **What is left after some steps.** -/
theorem run (h : image.Returns I J post limit c) (hrun : image.Run n c c') :
    ∃ rest, n + rest ≤ limit ∧ image.Returns I J post rest c' := by
  induction hrun generalizing limit with
  | nil => exact ⟨limit, by omega, h⟩
  | cons hstep hrun ih =>
    cases h with
    | ret h hret hpost => exact absurd hstep hret.not_step
    | step h hcan hsteps hnext =>
      obtain ⟨rest, hle, hrest⟩ := ih (hnext _ hstep)
      exact ⟨rest, by omega, hrest⟩

theorem holds (h : image.Returns I J post limit c) : I c := by
  cases h with
  | ret h => exact h
  | step h => exact h

theorem progress (h : image.Returns I J post limit c) :
    image.AtReturn c ∨ ∃ c', image.Step c c' := by
  cases h with
  | ret h hret hpost => exact .inl hret
  | step h hcan hsteps hnext => exact .inr hcan

theorem lt_size (h : image.Returns I J post limit c) : c.offset < image.code.size := by
  rcases h.progress with ⟨next, hret⟩ | ⟨c', hstep⟩
  · exact lt_of_fetch? hret
  · cases hstep with
    | instr hop | call hop | jump hop | taken hop | passed hop => exact lt_of_fetch? hop

theorem of_step (h : image.Returns I J post limit c) (hstep : image.Step c c') : J c c' := by
  cases h with
  | ret h hret hpost => exact absurd hstep hret.not_step
  | step h hcan hsteps hnext => exact hsteps c' hstep

theorem post_of_atReturn (h : image.Returns I J post limit c) (hret : image.AtReturn c) :
    post c.state := by
  cases h with
  | ret h hret hpost => exact hpost
  | step h hcan hsteps hnext =>
    obtain ⟨c', hstep⟩ := hcan
    exact absurd hstep hret.not_step

/-! ### One instruction -/

/-- There is only one next step. -/
theorem of_unique (h : I c) (hstep : image.Step c c') (hunique : ∀ c'', image.Step c c'' → c'' = c')
    (hJ : J c c') (hnext : image.Returns I J post limit c') :
    image.Returns I J post (limit + 1) c := by
  refine .step h ⟨c', hstep⟩ ?_ ?_
  · intro c'' hc''
    rwa [hunique c'' hc'']
  · intro c'' hc''
    rwa [hunique c'' hc'']

theorem of_instr {i : Instr} {s' : State} (h : I ⟨offset, s⟩)
    (hop : fetch? image.code offset = some (.instr i, next))
    (hstep : i.step (alone image.base) s = some s') (hJ : J ⟨offset, s⟩ ⟨next, s'⟩)
    (hnext : image.Returns I J post limit ⟨next, s'⟩) :
    image.Returns I J post (limit + 1) ⟨offset, s⟩ := by
  refine .of_unique h (.instr hop hstep) ?_ hJ hnext
  intro c' hc'
  cases hc' with
  | instr hop' hstep' =>
    rw [hop] at hop'
    cases hop'
    rw [hstep] at hstep'
    cases hstep'
    rfl
  | call hop' =>
    rw [hop] at hop'
    cases hop'
    cases hstep
  | jump hop' | taken hop' | passed hop' =>
    rw [hop] at hop'
    cases hop'

theorem of_jump {distance : Int32} {target : Nat} (h : I ⟨offset, s⟩)
    (hop : fetch? image.code offset = some (.jump distance, next))
    (htarget : (next : Int) + distance.toInt = target) (hJ : J ⟨offset, s⟩ ⟨target, s⟩)
    (hnext : image.Returns I J post limit ⟨target, s⟩) :
    image.Returns I J post (limit + 1) ⟨offset, s⟩ := by
  refine .of_unique h (.jump hop htarget) ?_ hJ hnext
  intro c' hc'
  cases hc' with
  | jump hop' htarget' =>
    rw [hop] at hop'
    cases hop'
    rw [htarget] at htarget'
    cases htarget'
    rfl
  | instr hop' | call hop' | taken hop' | passed hop' =>
    rw [hop] at hop'
    cases hop'

theorem of_call {reg : Gpr} (h : I ⟨offset, s⟩)
    (hop : fetch? image.code offset = some (.instr (.callReg reg), next))
    (hcallable : image.callable (s.gpr reg))
    (hnext : ∀ s', s.Returned s' →
      J ⟨offset, s⟩ ⟨next, s'⟩ ∧ image.Returns I J post limit ⟨next, s'⟩) :
    image.Returns I J post (limit + 1) ⟨offset, s⟩ := by
  -- There is a next step for every state that a callee may leave behind.
  have hcases : ∀ c', image.Step ⟨offset, s⟩ c' → ∃ s', s.Returned s' ∧ c' = ⟨next, s'⟩ := by
    intro c' hc'
    cases hc' with
    | call hop' hcallable' hreturned =>
      rw [hop] at hop'
      cases hop'
      exact ⟨_, hreturned, rfl⟩
    | instr hop' hstep =>
      rw [hop] at hop'
      cases hop'
      cases hstep
    | jump hop' | taken hop' | passed hop' =>
      rw [hop] at hop'
      cases hop'
  refine .step h ⟨_, .call hop hcallable (.refl s)⟩ ?_ ?_
  · intro c' hc'
    obtain ⟨s', hreturned, rfl⟩ := hcases c' hc'
    exact (hnext s' hreturned).1
  · intro c' hc'
    obtain ⟨s', hreturned, rfl⟩ := hcases c' hc'
    exact (hnext s' hreturned).2

theorem of_jumpIf {cond : Cond} {distance : Int32} {target : Nat} (h : I ⟨offset, s⟩)
    (hop : fetch? image.code offset = some (.jumpIf cond distance, next))
    (htarget : (next : Int) + distance.toInt = target)
    (hJ : ∀ offset', J ⟨offset, s⟩ ⟨offset', s⟩)
    (htaken : image.Returns I J post limit ⟨target, s⟩)
    (hpassed : image.Returns I J post limit ⟨next, s⟩) :
    image.Returns I J post (limit + 1) ⟨offset, s⟩ := by
  have hcases : ∀ c', image.Step ⟨offset, s⟩ c' → c' = ⟨target, s⟩ ∨ c' = ⟨next, s⟩ := by
    intro c' hc'
    cases hc' with
    | taken hop' htarget' =>
      rw [hop] at hop'
      cases hop'
      rw [htarget] at htarget'
      cases htarget'
      exact .inl rfl
    | passed hop' =>
      rw [hop] at hop'
      cases hop'
      exact .inr rfl
    | instr hop' | call hop' | jump hop' =>
      rw [hop] at hop'
      cases hop'
  refine .step h ⟨_, .passed hop⟩ ?_ ?_
  · intro c' hc'
    obtain rfl | rfl := hcases c' hc'
    · exact hJ target
    · exact hJ next
  · intro c' hc'
    obtain rfl | rfl := hcases c' hc'
    · exact htaken
    · exact hpassed

end Returns

end Image

end Host

end AlphaMachine
