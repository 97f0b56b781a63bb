import AlphaMachine.Proofs.Block.Discipline
import AlphaMachine.Proofs.Host.Placement

/-!
# Blocks as functions

A compiled block is called like any other function of the host.  Its code is laid out as

```text
prologue | code of the instructions | way on | exit: epilogue | exits of traps
```

and a run passes through it from left to right, except that the exits of traps jump back to the
epilogue.  Between prologue and epilogue the run has a frame (`Block.Framed`): the saved registers
are on the stack, which is aligned, and nothing in the block changes that.  So whatever the helpers
do and however conditional jumps go, the run comes to the return after at most thirteen
instructions besides those of the body, and its caller finds everything as it was
(`Block.Entered.returns`).
-/

namespace AlphaMachine

namespace Block

open Host

/-! ### The frame -/

/-- The frame of a run that was entered in the state `s₀`. -/
structure Framed (s₀ s : Host.State) : Prop where
  /-- `rbx` holds the address of the processor state. -/
  rbx : s.gpr .rbx = s₀.gpr .rdi
  /-- Three quadwords are on the stack. -/
  rsp : s.gpr .rsp = s₀.gpr .rsp - 24
  /-- Other registers that a callee has to keep are as they were. -/
  untouched : ∀ r ∈ untouched, s.gpr r = s₀.gpr r
  /-- The saved `rbx`. -/
  savedRbx : s.stack (s₀.gpr .rsp - 8) = s₀.gpr .rbx
  /-- The saved `r12`. -/
  savedR12 : s.stack (s₀.gpr .rsp - 16) = s₀.gpr .r12
  /-- The return address. -/
  returnAddress : s.stack (s₀.gpr .rsp) = s₀.stack (s₀.gpr .rsp)

/-- The caller finds everything as it was. -/
structure Restored (s₀ s : Host.State) : Prop where
  /-- The stack pointer. -/
  rsp : s.gpr .rsp = s₀.gpr .rsp
  /-- The first of the registers that the block uses. -/
  rbx : s.gpr .rbx = s₀.gpr .rbx
  /-- The second of the registers that the block uses. -/
  r12 : s.gpr .r12 = s₀.gpr .r12
  /-- The return address. -/
  returnAddress : s.stack (s₀.gpr .rsp) = s₀.stack (s₀.gpr .rsp)

namespace Framed

variable {s₀ s s' : Host.State}

/-- The stack is aligned for a call. -/
theorem aligned (h : Framed s₀ s) (hentry : (s₀.gpr .rsp).toNat % 16 = 8) :
    (s.gpr .rsp).toNat % 16 = 0 := by
  have h24 : (24 : UInt64).toNat = 24 := rfl
  rw [h.rsp, UInt64.toNat_sub]
  omega

theorem of_calm (h : Framed s₀ s) (hcalm : Calm s s') : Framed s₀ s' where
  rbx := (hcalm.gpr .rbx (by decide)).trans h.rbx
  rsp := (hcalm.gpr .rsp (by decide)).trans h.rsp
  untouched r hr := by
    refine (hcalm.gpr r ?_).trans (h.untouched r hr)
    revert hr
    cases r <;> decide
  savedRbx := by rw [hcalm.stack, h.savedRbx]
  savedR12 := by rw [hcalm.stack, h.savedR12]
  returnAddress := by rw [hcalm.stack, h.returnAddress]

theorem set (h : Framed s₀ s) {r : Gpr} (hr : r ∈ scratch) (value : UInt64) :
    Framed s₀ (s.set r value) := by
  refine h.of_calm ⟨fun r' hr' => ?_, rfl, rfl⟩
  rw [Host.State.gpr_set, if_neg]
  rintro rfl
  exact hr' hr

/-- A callee keeps the frame. -/
theorem returned (h : Framed s₀ s) (hreturned : s.Returned s') : Framed s₀ s' := by
  have hstack (distance : UInt64) (hlt : distance < 0x8000000000000000) :
      s'.stack (s₀.gpr .rsp - 24 + distance) = s.stack (s₀.gpr .rsp - 24 + distance) := by
    rw [← h.rsp]
    exact hreturned.stack distance hlt
  -- The saved registers and the return address lie from the stack pointer up.
  have h8 : s₀.gpr .rsp - 24 + 16 = s₀.gpr .rsp - 8 := by grind
  have h16 : s₀.gpr .rsp - 24 + 8 = s₀.gpr .rsp - 16 := by grind
  have h0 : s₀.gpr .rsp - 24 + 24 = s₀.gpr .rsp := by grind
  refine ⟨(hreturned.gpr .rbx (by decide)).trans h.rbx,
    (hreturned.gpr .rsp (by decide)).trans h.rsp, fun r hr => ?_, ?_, ?_, ?_⟩
  · refine (hreturned.gpr r ?_).trans (h.untouched r hr)
    revert hr
    cases r <;> decide
  · rw [← h8, hstack 16 (by decide), h8, h.savedRbx]
  · rw [← h16, hstack 8 (by decide), h16, h.savedR12]
  · nth_rewrite 1 [← h0]
    rw [hstack 24 (by decide), h0, h.returnAddress]

end Framed

/-! ### Parts of the code -/

/-- The code before the common way out. -/
def inner (start : UInt64) (words : List UInt32) (body : Code) : Code :=
  prologue ++ body ++ fallThrough start words

/-- The code before the exits of traps. -/
def main (start : UInt64) (words : List UInt32) (body : Code) : Code :=
  inner start words body ++ epilogue

/-- The block has its frame at these offsets: between the prologue and the epilogue, and in the
exits of traps. -/
def InFrame (start : UInt64) (words : List UInt32) (body : Code) (offset : Nat) : Prop :=
  Line.extent prologue ≤ offset ∧ offset < Line.extent (inner start words body) ∨
    Line.extent (main start words body) ≤ offset

/-- The code of a block in place, about to be entered in the state `s₀`. -/
structure Entered (start : UInt64) (words : List UInt32) (body : Code)
    (address : Helper → UInt64) (image : Image) (s₀ : Host.State) : Prop where
  /-- The code is in place. -/
  placed : Line.Placed (enclose start words body) address image.code
  /-- Jumps can reach everything. -/
  short : Line.extent (enclose start words body) < 2 ^ 31
  /-- The first argument is the address of the processor state. -/
  base : image.base = s₀.gpr .rdi
  /-- Helpers can be called. -/
  callable : ∀ helper, image.callable (address helper)
  /-- The stack was aligned before the return address. -/
  aligned : (s₀.gpr .rsp).toNat % 16 = 8

/-- What holds wherever a run passes. -/
structure Orderly (image : Image) (framed : Nat → Prop) (s₀ : Host.State) (c : Config) :
    Prop where
  /-- An instruction begins there. -/
  boundary : Boundary image.code c.offset
  /-- Calls are made with an aligned stack. -/
  aligned : image.AtCall c → (c.state.gpr .rsp).toNat % 16 = 0
  /-- Registers without a use are as they were. -/
  untouched : ∀ r ∈ untouched, c.state.gpr r = s₀.gpr r
  /-- There is a frame where there should be. -/
  framed : framed c.offset → Framed s₀ c.state

/-- Before the exits of traps, only calls change the pending slot. -/
def Quiet (image : Image) (exits : Nat) (c c' : Config) : Prop :=
  ¬ image.AtCall c → c.offset < exits →
    c'.state.guest.cpu.pendingTrap = c.state.guest.cpu.pendingTrap

/-- Every run from here returns in order. -/
abbrev Returning (start : UInt64) (words : List UInt32) (body : Code) (image : Image)
    (s₀ : Host.State) (post : Host.State → Prop) : Nat → Config → Prop :=
  image.Returns (Orderly image (InFrame start words body) s₀)
    (Quiet image (Line.extent (main start words body))) post

theorem exit_bound (start : UInt64) (words : List UInt32) (body : Code) :
    enclose start words body = inner start words body ++ Line.bind .exit ::
      (instrs [.aluImm .add .qword .rsp 8, .pop .r12, .pop .rbx, .ret] ++ trapExits body) := by
  simp [enclose, inner, epilogue]

/-- What the exit of a trap leaves in the pending slot: the kind of the trap, or what a helper put
there. -/
def recorded (pc : UInt64) : Option TrapKind → Machine → Machine
  | none, m => m
  | some kind, m => pend m ⟨kind, pc, none⟩

/-- Every trap that the code jumps to has its exit. -/
theorem exists_trapExit {body : Code} {pc : UInt64} {kind : Option TrapKind}
    (h : .trap pc kind ∈ body.filterMap Line.target?) (start : UInt64) (words : List UInt32) :
    ∃ before after, enclose start words body =
      (main start words body ++ before) ++ (trapExit pc kind ++ after) := by
  have hmem : trapExit pc kind ∈
      (body.filterMap Line.target?).eraseDups.filterMap trapExit? := by
    refine List.mem_filterMap.2 ⟨.trap pc kind, ?_, rfl⟩
    exact List.mem_eraseDups.2 h
  obtain ⟨before, after, hsplit⟩ := List.append_of_mem hmem
  have hexits : trapExits body = before.flatten ++ (trapExit pc kind ++ after.flatten) := by
    rw [trapExits, hsplit, List.flatten_append, List.flatten_cons]
  refine ⟨before.flatten, after.flatten, ?_⟩
  rw [enclose, hexits, main, inner]
  simp

namespace Entered

variable {start : UInt64} {words : List UInt32} {body : Code} {address : Helper → UInt64}
  {image : Image} {s₀ s : Host.State} {before after : Code}

/-! ### Single lines -/

theorem orderly (h : Entered start words body address image s₀)
    (hcode : enclose start words body = before ++ after) (hs : Framed s₀ s) :
    Orderly image (InFrame start words body) s₀ ⟨Line.extent before, s⟩ where
  boundary := h.placed.boundary hcode
  aligned _ := hs.aligned h.aligned
  untouched := hs.untouched
  framed _ := hs

/-- In the prologue and the epilogue, where there are no calls. -/
theorem orderly_outside (h : Entered start words body address image s₀) {i : Instr}
    (hcode : enclose start words body = before ++ Line.instr i :: after)
    (hcall : i.calls = false)
    (hframe : ¬ InFrame start words body (Line.extent before))
    (huntouched : ∀ r ∈ untouched, s.gpr r = s₀.gpr r) :
    Orderly image (InFrame start words body) s₀ ⟨Line.extent before, s⟩ where
  boundary := h.placed.boundary hcode
  aligned := by
    rintro ⟨reg, next, hreg⟩
    obtain ⟨op, hgives, hop⟩ := h.placed.line before _ after hcode (by simp)
    rw [hreg] at hop
    cases hop
    cases hgives with
    | instr hsame =>
      cases hsame
      cases hcall
  untouched := huntouched
  framed hin := absurd hin hframe

theorem untouched_of_step {i : Instr} {s' : Host.State} {base : UInt64}
    (hstep : i.step (alone base) s = some s') (hi : ∀ r ∈ i.written, r ∉ untouched)
    (h : ∀ r ∈ untouched, s.gpr r = s₀.gpr r) : ∀ r ∈ untouched, s'.gpr r = s₀.gpr r := by
  intro r hr
  exact (Instr.gpr_of_step hstep fun hmem => hi r hmem hr).trans (h r hr)

/-- **Instructions in a row**, in the prologue or the epilogue. -/
theorem returns_row (h : Entered start words body address image s₀) {l : List Instr}
    (hl : ∀ i ∈ l, i.calls = false ∧ i.stores = false ∧ ∀ r ∈ i.written, r ∉ untouched)
    {post : Host.State → Prop} (limit : Nat) {s' : Host.State}
    (hcode : enclose start words body = before ++ (instrs l ++ after))
    (hframe : ∀ offset, Line.extent before ≤ offset → offset < Line.extent (before ++ instrs l) →
      ¬ InFrame start words body offset)
    (huntouched : ∀ r ∈ untouched, s.gpr r = s₀.gpr r)
    (hsteps : l.foldlM (fun s i => i.step (alone image.base) s) s = some s')
    (hnext : (∀ r ∈ untouched, s'.gpr r = s₀.gpr r) →
      Returning start words body image s₀ post limit ⟨Line.extent (before ++ instrs l), s'⟩) :
    Returning start words body image s₀ post (limit + l.length) ⟨Line.extent before, s⟩ := by
  induction l generalizing before s with
  | nil =>
    cases hsteps
    rw [instrs, List.map_nil, List.append_nil] at hnext
    exact hnext huntouched
  | cons i rest ih =>
    obtain ⟨⟨hcall, hstores, hwritten⟩, hrest⟩ := List.forall_mem_cons.1 hl
    obtain ⟨s₁, hstep, hsteps⟩ := Option.bind_eq_some_iff.1 hsteps
    have hcons : before ++ instrs (i :: rest) = (before ++ [Line.instr i]) ++ instrs rest := by
      simp [instrs]
    have hcode' : enclose start words body =
        (before ++ [Line.instr i]) ++ (instrs rest ++ after) := by
      rw [hcode, ← List.append_assoc, hcons, List.append_assoc]
    have hwidth := Line.width_instr_pos i (L := Label) (S := Helper)
    rw [hcons] at hframe hnext
    have hbefore : ¬ InFrame start words body (Line.extent before) := by
      refine hframe _ (Nat.le_refl _) ?_
      simp
      omega
    refine h.placed.returns_instr hcode
      (h.orderly_outside hcode hcall hbefore huntouched) hstep ?_ ?_
    · intro _ _
      rw [Instr.guest_of_step hstep hstores]
    · refine ih hrest hcode' ?_ (untouched_of_step hstep hwritten huntouched) hsteps hnext
      intro offset hle hlt
      refine hframe offset ?_ hlt
      simp at hle
      omega

/-! ### The way in and the way out -/

/-- **The prologue sets the frame up.** -/
theorem returns_prologue (h : Entered start words body address image s₀)
    {post : Host.State → Prop} {limit : Nat}
    (hnext : ∀ s, Framed s₀ s →
      Returning start words body image s₀ post limit ⟨Line.extent prologue, s⟩) :
    Returning start words body image s₀ post (limit + 5) ⟨0, s₀⟩ := by
  have hcode : enclose start words body = [] ++ (prologue ++
      (body ++ fallThrough start words ++ epilogue ++ trapExits body)) := by
    simp [enclose]
  refine h.returns_row (by decide) limit hcode ?_ (fun _ _ => rfl) rfl fun huntouched => hnext _ ?_
  · intro offset _ hlt
    have hmain : Line.extent prologue ≤ Line.extent (main start words body) := by
      simp [main, inner]
    rw [InFrame]
    rw [List.nil_append] at hlt
    change offset < Line.extent prologue at hlt
    omega
  · refine ⟨rfl, ?_, huntouched, ?_, ?_, ?_⟩
    · change s₀.gpr .rsp - 8 - 8 - 8 = s₀.gpr .rsp - 24
      grind
    · change (if s₀.gpr .rsp - 8 = s₀.gpr .rsp - 8 - 8 then _ else _) = _
      rw [if_neg (by grind)]
      change (if s₀.gpr .rsp - 8 = s₀.gpr .rsp - 8 then _ else _) = _
      rw [if_pos rfl]
    · change (if s₀.gpr .rsp - 16 = s₀.gpr .rsp - 8 - 8 then _ else _) = _
      rw [if_pos (by grind)]
      rfl
    · change (if s₀.gpr .rsp = s₀.gpr .rsp - 8 - 8 then _ else _) = _
      rw [if_neg (by grind)]
      change (if s₀.gpr .rsp = s₀.gpr .rsp - 8 then _ else _) = _
      rw [if_neg (by grind)]

/-- **The epilogue takes the frame down.** -/
theorem returns_exit (h : Entered start words body address image s₀) (hs : Framed s₀ s) :
    Returning start words body image s₀
      (fun s' => Restored s₀ s' ∧ s'.gpr .rax = s.gpr .rax ∧ s'.guest = s.guest) 4
      ⟨Line.extent (inner start words body), s⟩ := by
  have hbind : Line.extent (inner start words body) =
      Line.extent (inner start words body ++ [Line.bind Label.exit]) := by simp
  have hcode : enclose start words body = (inner start words body ++ [Line.bind Label.exit]) ++
      (instrs [.aluImm .add .qword .rsp 8, .pop .r12, .pop .rbx] ++
        Line.instr .ret :: trapExits body) := by
    simp [enclose, inner, epilogue, instrs]
  have hret : enclose start words body = (inner start words body ++ [Line.bind Label.exit] ++
      instrs [.aluImm .add .qword .rsp 8, .pop .r12, .pop .rbx]) ++
        Line.instr .ret :: trapExits body := by
    rw [hcode, ← List.append_assoc]
  have hepilogue : Line.extent epilogue = 11 := by decide
  have hpops : Line.extent (instrs [.aluImm .add .qword .rsp 8, .pop .r12, .pop .rbx]) = 10 := by
    decide
  have hout (offset : Nat) (hle : Line.extent (inner start words body) ≤ offset)
      (hlt : offset < Line.extent (inner start words body) + 11) :
      ¬ InFrame start words body offset := by
    rw [InFrame, main, Line.extent_append, hepilogue]
    omega
  have h16 : s₀.gpr .rsp - 24 + 8 = s₀.gpr .rsp - 16 := by grind
  have h8 : s₀.gpr .rsp - 16 + 8 = s₀.gpr .rsp - 8 := by grind
  have h0 : s₀.gpr .rsp - 8 + 8 = s₀.gpr .rsp := by grind
  rw [hbind]
  refine h.returns_row (by decide) 1 hcode ?_ hs.untouched rfl fun huntouched =>
    h.placed.returns_ret hret (h.orderly_outside hret rfl ?_ huntouched) ?_
  · intro offset hle hlt
    rw [Line.extent_append, hpops, ← hbind] at hlt
    rw [← hbind] at hle
    exact hout offset hle (by omega)
  · rw [Line.extent_append, hpops, ← hbind]
    exact hout _ (by omega) (by omega)
  · refine ⟨⟨?_, ?_, ?_, ?_⟩, rfl, rfl⟩
    · change s.gpr .rsp + 8 + 8 + 8 = s₀.gpr .rsp
      rw [hs.rsp, h16, h8, h0]
    · change s.stack (s.gpr .rsp + 8 + 8) = s₀.gpr .rbx
      rw [hs.rsp, h16, h8, hs.savedRbx]
    · change s.stack (s.gpr .rsp + 8) = s₀.gpr .r12
      rw [hs.rsp, h16, hs.savedR12]
    · exact hs.returnAddress

theorem returns_exitTo (h : Entered start words body address image s₀) (target : UInt64)
    (hcode : enclose start words body = before ++ (exitTo target ++ after)) (hs : Framed s₀ s) :
    Returning start words body image s₀
      (fun s' => Restored s₀ s' ∧ s'.gpr .rax = target ∧ s'.guest = s.guest) 6
      ⟨Line.extent before, s⟩ := by
  have hload : enclose start words body =
      before ++ Line.instr (.movImm .rax target) :: (.jump .exit :: after) := by
    simpa [exitTo] using hcode
  have hjump : enclose start words body =
      (before ++ [Line.instr (.movImm .rax target)]) ++ Line.jump .exit :: after := by
    simpa using hload
  have hs' : Framed s₀ (s.set .rax target) := hs.set (by decide) target
  refine h.placed.returns_instr hload (h.orderly hload hs) rfl (fun _ _ => rfl) ?_
  refine h.placed.returns_jump hjump h.short (h.orderly hjump hs') (exit_bound start words body)
    (fun _ _ => rfl) ?_
  exact h.returns_exit hs'

/-- A field is set in the exit of a trap. -/
theorem returns_storeImm (h : Entered start words body address image s₀)
    {post : Host.State → Prop} {limit n : Nat} (hn : n < 2 ^ 31) {f : Field}
    (hf : Field.at? n = some f) {imm : Int32}
    (hcode : enclose start words body =
      before ++ Line.instr (.storeImm .rbx (field n) imm) :: after)
    (hmain : Line.extent (main start words body) ≤ Line.extent before) (hs : Framed s₀ s)
    (hnext : ∀ s', s' = { s with guest.cpu := f.write s.guest.cpu (immediate imm) } →
      Framed s₀ s' → Returning start words body image s₀ post limit
        ⟨Line.extent (before ++ [Line.instr (.storeImm .rbx (field n) imm)]), s'⟩) :
    Returning start words body image s₀ post (limit + 1) ⟨Line.extent before, s⟩ := by
  have hstep : (Instr.storeImm .rbx (field n) imm).step (alone image.base) s =
      some { s with guest.cpu := f.write s.guest.cpu (immediate imm) } := by
    simp only [Instr.step, Host.State.writeQuad, offset_alone (hs.rbx.trans h.base.symm),
      toNat_immediate_field hn, hf, Option.map_some]
  refine h.placed.returns_instr hcode (h.orderly hcode hs) hstep ?_ (hnext _ rfl ?_)
  · intro _ hlt
    exact absurd hmain (Nat.not_le_of_lt hlt)
  · exact ⟨hs.rbx, hs.rsp, hs.untouched, hs.savedRbx, hs.savedR12, hs.returnAddress⟩

/-- **The exits of traps.** -/
theorem returns_trapExit (h : Entered start words body address image s₀) {pc : UInt64}
    {kind : Option TrapKind}
    (hcode : enclose start words body = before ++ (trapExit pc kind ++ after))
    (hmain : Line.extent (main start words body) ≤ Line.extent before) (hs : Framed s₀ s) :
    Returning start words body image s₀
      (fun s' => Restored s₀ s' ∧ s'.gpr .rax = pc ∧ s'.guest = recorded pc kind s.guest) 8
      ⟨Line.extent before, s⟩ := by
  have hbind : Line.extent before = Line.extent (before ++ [Line.bind (Label.trap pc kind)]) := by
    simp
  rw [hbind] at hmain ⊢
  cases kind with
  | none =>
    have hexit : enclose start words body =
        (before ++ [Line.bind (Label.trap pc none)]) ++ (exitTo pc ++ after) := by
      simpa [trapExit, instrs] using hcode
    exact (h.returns_exitTo pc hexit hs).mono (by decide)
  | some kind =>
    have hkind : enclose start words body = (before ++ [Line.bind (Label.trap pc (some kind))]) ++
        Line.instr (.storeImm .rbx (field Layout.pendingTrap) kind.code.toUInt32.toInt32) ::
        (.instr (.storeImm .rbx (field Layout.pendingTrapAddr) 0) :: (exitTo pc ++ after)) := by
      simpa [trapExit, instrs] using hcode
    refine h.returns_storeImm (by decide) Field.at?_pendingTrap hkind hmain hs ?_
    rintro s₁ rfl hs₁
    refine h.returns_storeImm (by decide) Field.at?_pendingTrapAddr (by simpa using hkind) ?_ hs₁ ?_
    · refine Nat.le_trans hmain ?_
      simp
    rintro s₂ rfl hs₂
    refine (h.returns_exitTo pc (by simpa using hkind) hs₂).imp ?_
    rintro s' ⟨hrestored, hrax, hguest⟩
    refine ⟨hrestored, hrax, hguest.trans ?_⟩
    rw [immediate_code]
    rfl

/-! ### The code of the instructions -/

/-- The label is bound, and whoever jumps to it from within the frame returns. -/
def WayOut (start : UInt64) (words : List UInt32) (body : Code) (image : Image)
    (s₀ : Host.State) (label : Label) : Prop :=
  ∃ before after, enclose start words body = before ++ Line.bind label :: after ∧
    ∀ s, Framed s₀ s →
      Returning start words body image s₀ (Restored s₀) 8 ⟨Line.extent before, s⟩

theorem wayOut_exit (h : Entered start words body address image s₀) :
    WayOut start words body image s₀ .exit := by
  refine ⟨_, _, exit_bound start words body, fun s hs => ?_⟩
  exact ((h.returns_exit hs).imp fun _ hs' => hs'.1).mono (by decide)

theorem wayOut_trap (h : Entered start words body address image s₀) {pc : UInt64}
    {kind : Option TrapKind} (hlabel : .trap pc kind ∈ body.filterMap Line.target?) :
    WayOut start words body image s₀ (.trap pc kind) := by
  obtain ⟨before, after, hcode⟩ := exists_trapExit hlabel start words
  refine ⟨main start words body ++ before, _, hcode, fun s hs => ?_⟩
  refine (h.returns_trapExit hcode ?_ hs).imp fun _ hs' => hs'.1
  simp

/-- **Tame code runs through to its end or leaves for a return.** -/
theorem returns_tame (h : Entered start words body address image s₀) {code : Code}
    (htame : Tame (WayOut start words body image s₀) code) {limit : Nat} (hlimit : 8 ≤ limit)
    (hcode : enclose start words body = before ++ (code ++ after))
    (hnext : ∀ s, Framed s₀ s → Returning start words body image s₀ (Restored s₀) limit
      ⟨Line.extent (before ++ code), s⟩) (hs : Framed s₀ s) :
    Returning start words body image s₀ (Restored s₀) (limit + code.length)
      ⟨Line.extent before, s⟩ := by
  induction htame generalizing before after limit s with
  | nil =>
    rw [List.append_nil] at hnext
    exact hnext s hs
  | @instr i rest hi _ ih =>
    obtain ⟨s', hstep, hcalm⟩ := exists_calm_of_plain hi (hs.rbx.trans h.base.symm)
    rw [List.append_cons] at hnext
    refine h.placed.returns_instr hcode (h.orderly hcode hs) hstep
      (fun _ _ => hcalm.pendingTrap) ?_
    exact ih hlimit (by simpa using hcode) hnext (hs.of_calm hcalm)
  | @test i j rest hi htest hj hscratch _ ih =>
    obtain ⟨s₁, hstep₁, hcalm₁⟩ := exists_calm_of_plain hi (hs.rbx.trans h.base.symm)
    obtain ⟨s₂, hstep₂, hcalm₂⟩ := exists_calm_of_onFlags hj hscratch
      (defined_of_isTest htest hstep₁) image.base
    have hs₁ := hs.of_calm hcalm₁
    have hcode₁ : enclose start words body =
        (before ++ [Line.instr i]) ++ Line.instr j :: (rest ++ after) := by
      simpa using hcode
    rw [List.append_cons, List.append_cons] at hnext
    refine h.placed.returns_instr hcode (h.orderly hcode hs) hstep₁
      (fun _ _ => hcalm₁.pendingTrap) ?_
    refine h.placed.returns_instr hcode₁ (h.orderly hcode₁ hs₁) hstep₂
      (fun _ _ => hcalm₂.pendingTrap) ?_
    exact ih hlimit (by simpa using hcode₁) hnext (hs₁.of_calm hcalm₂)
  | @call helper rest _ ih =>
    have hs₁ : Framed s₀ (s.set .rax (address helper)) := hs.set (by decide) _
    have hcode₁ : enclose start words body = (before ++ [Line.address .rax helper]) ++
        Line.instr (.callReg .rax) :: (rest ++ after) := by
      simpa using hcode
    rw [List.append_cons, List.append_cons] at hnext
    refine h.placed.returns_address hcode (h.orderly hcode hs) (fun _ _ => rfl) ?_
    refine h.placed.returns_call hcode₁ (h.orderly hcode₁ hs₁) (h.callable helper) ?_
    intro s' hreturned
    refine ⟨fun hcall => absurd (h.placed.atCall hcode₁ _) hcall, ?_⟩
    exact ih hlimit (by simpa using hcode₁) hnext (hs₁.returned hreturned)
  | @leave label rest hlabel _ ih =>
    -- The limit has room for the way out, however much of the code would be left.
    obtain ⟨before', after', hbound, hout⟩ := hlabel
    refine h.placed.returns_jump hcode h.short (h.orderly hcode hs) hbound (fun _ _ => rfl) ?_
    exact (hout s hs).mono (Nat.le_trans hlimit (Nat.le_add_right ..))
  | @leaveIf cond label rest hlabel _ ih =>
    obtain ⟨before', after', hbound, hout⟩ := hlabel
    rw [List.append_cons] at hnext
    refine h.placed.returns_jumpIf hcode h.short (h.orderly hcode hs) hbound (fun _ _ _ => rfl)
      ((hout s hs).mono (Nat.le_trans hlimit (Nat.le_add_right ..))) ?_
    exact ih hlimit (by simpa using hcode) hnext hs
  | @branch cond front back _ _ ihFront ihBack =>
    -- Both sides go on to the position behind them, which is the same for the label and after it.
    have htaken : enclose start words body = (before ++ [Line.jumpIf cond Label.taken] ++ front) ++
        Line.bind .taken :: (back ++ after) := by
      simpa using hcode
    have hextent :
        Line.extent (before ++ [Line.jumpIf cond Label.taken] ++ front ++ [Line.bind Label.taken]) =
        Line.extent (before ++ [Line.jumpIf cond Label.taken] ++ front) := by
      simp
    have hback (s : Host.State) (hs : Framed s₀ s) :
        Returning start words body image s₀ (Restored s₀) (limit + back.length)
          ⟨Line.extent (before ++ [Line.jumpIf cond Label.taken] ++ front), s⟩ := by
      rw [← hextent]
      refine ihBack hlimit (by simpa using htaken) (fun s hs => ?_) hs
      simpa using hnext s hs
    have hfront := ihFront (Nat.le_trans hlimit (Nat.le_add_right limit back.length))
      (by simpa using hcode) hback hs
    have hlength :
        limit + (Line.jumpIf cond Label.taken :: (front ++ Line.bind Label.taken :: back)).length =
        limit + back.length + front.length + 1 + 1 := by
      simp only [List.length_cons, List.length_append]
      omega
    rw [hlength]
    refine h.placed.returns_jumpIf hcode h.short (h.orderly hcode hs) htaken (fun _ _ _ => rfl)
      ((hback s hs).mono (by omega)) (hfront.mono (by omega))

theorem returns_fallThrough (h : Entered start words body address image s₀)
    (hends : words.getLast?.any endsAt = false) (hs : Framed s₀ s) :
    Returning start words body image s₀
      (fun s' => Restored s₀ s' ∧ s'.gpr .rax = start + 4 * words.length.toUInt64 ∧
        s'.guest = s.guest) 6 ⟨Line.extent (prologue ++ body), s⟩ := by
  have hcode : enclose start words body = (prologue ++ body) ++
      (exitTo (start + 4 * words.length.toUInt64) ++ (epilogue ++ trapExits body)) := by
    rw [enclose, fallThrough, hends, if_neg Bool.false_ne_true]
    simp
  exact h.returns_exitTo _ hcode hs

/-- **A block returns**, after at most thirteen instructions besides those of its body. -/
theorem returns (h : Entered start words body address image s₀)
    (hbody : lowerWords start words = .ok body) :
    Returning start words body image s₀ (Restored s₀) (body.length + 13) ⟨0, s₀⟩ := by
  -- Whatever label the body leaves for is bound behind it, and leads to the return.
  have htame : Tame (WayOut start words body image s₀) body := by
    refine (tame_lowerWords hbody).mono ?_
    rintro label hlabel (rfl | ⟨n, -, kind, rfl⟩)
    · exact h.wayOut_exit
    · exact h.wayOut_trap hlabel
  have hcode : enclose start words body =
      prologue ++ (body ++ (fallThrough start words ++ epilogue ++ trapExits body)) := by
    simp [enclose]
  have hrest (s : Host.State) (hs : Framed s₀ s) : Returning start words body image s₀
      (Restored s₀) 8 ⟨Line.extent (prologue ++ body), s⟩ := by
    cases hends : words.getLast?.any endsAt with
    | false => exact ((h.returns_fallThrough hends hs).imp fun _ hs' => hs'.1).mono (by decide)
    | true =>
      have hinner : prologue ++ body = inner start words body := by
        rw [inner, fallThrough, hends, if_pos rfl, List.append_nil]
      rw [hinner]
      exact ((h.returns_exit hs).imp fun _ hs' => hs'.1).mono (by decide)
  have hreturns := h.returns_prologue fun s hs =>
    h.returns_tame htame (Nat.le_refl 8) hcode hrest hs
  exact hreturns.mono (by omega)

end Entered

end Block

end AlphaMachine
