import AlphaMachine.Proofs.Block.Acceptance
import AlphaMachine.Proofs.Block.Convention
import AlphaMachine.Proofs.Block.Effect
import AlphaMachine.Proofs.Engine.Blocks

/-!
# Calling a block

What a caller can rely on (`Block.Conforms`) is in part about runs and follows from
`Block.Entered.returns`.  The other part is about the bytes: which registers they write, where their
jumps lead, and that there is one return.  It follows from the lines of the code, since every
instruction that a processor finds comes from a line (`Block.Entered.exists_line`).

* `Block.calling_convention` : compiled blocks of less than 2 GiB conform;
* `Block.calling_convention_overlong` : longer ones need not, since distances of jumps have 32 bits.
-/

namespace AlphaMachine

/-- The distance that a jump goes over. -/
def Host.Op.distance? : Host.Op → Option Int32
  | .jump distance | .jumpIf _ distance => some distance
  | .instr _ => none

namespace Block

open Host

/-! ### The lines of a block -/

section Lines

variable {start : UInt64} {words : List UInt32} {body before after : Code}
  {line : Line Label Helper} {label : Label} {leaves : Label → Prop}

theorem usual_exitTo {target : UInt64} (h : line ∈ exitTo target) : Usual line := by
  have htame : Tame (fun _ => True) (exitTo target) := tame_exitTo trivial target
  exact htame.usual line h

theorem usual_fallThrough (h : line ∈ fallThrough start words) : Usual line := by
  rw [fallThrough] at h
  split at h
  · cases h
  · exact usual_exitTo h

/-- The exits of traps have the positions of their labels. -/
theorem mem_trapExits (h : line ∈ trapExits body) : Usual line ∨
    ∃ pc kind, .trap pc kind ∈ body.filterMap Line.target? ∧ line = .bind (.trap pc kind) := by
  obtain ⟨code, hcode, hline⟩ := List.mem_flatten.1 h
  obtain ⟨label, hlabel, hexit⟩ := List.mem_filterMap.1 hcode
  cases label with
  | exit | taken => cases hexit
  | trap pc kind =>
    cases hexit
    simp only [trapExit, List.cons_append, List.mem_cons, List.mem_append] at hline
    rcases hline with rfl | hline | hline
    · exact .inr ⟨pc, kind, List.mem_eraseDups.1 hlabel, rfl⟩
    · obtain ⟨i, hi, rfl⟩ := List.mem_map.1 hline
      cases kind with
      | none => cases hi
      | some kind =>
        refine .inl ⟨?_, ?_, fun label hlabel => by cases hlabel⟩
        all_goals
          simp only [List.mem_cons, List.not_mem_nil, or_false] at hi
          rcases hi with rfl | rfl <;> simp [writes, Instr.written]
    · exact .inl (usual_exitTo hline)

/-- Where lines that are not usual can come from. -/
theorem mem_enclose (htame : Tame leaves body) (h : line ∈ enclose start words body) :
    line ∈ prologue ++ epilogue ∨ Usual line ∨
      ∃ pc kind, .trap pc kind ∈ body.filterMap Line.target? ∧ line = .bind (.trap pc kind) := by
  simp only [enclose, List.mem_append] at h
  rcases h with (((h | h) | h) | h) | h
  · exact .inl (List.mem_append_left _ h)
  · exact .inr (.inl (htame.usual line h))
  · exact .inr (.inl (usual_fallThrough h))
  · exact .inl (List.mem_append_right _ h)
  · exact .inr (mem_trapExits h)

/-- No line sets a register without a use. -/
theorem spares_of_mem (htame : Tame leaves body) (h : line ∈ enclose start words body) :
    ∀ r ∈ writes line, r ∉ untouched := by
  rcases mem_enclose htame h with h | h | ⟨pc, kind, -, rfl⟩
  · have hall : ∀ line ∈ prologue ++ epilogue, ∀ r ∈ writes line, r ∉ untouched := by decide
    exact hall line h
  · exact h.spares
  · exact fun r hr => by cases hr

/-- Only traps that the code jumps to have an exit. -/
theorem target_of_trap {pc : UInt64} {kind : Option TrapKind} (htame : Tame leaves body)
    (h : .bind (.trap pc kind) ∈ enclose start words body) :
    .trap pc kind ∈ body.filterMap Line.target? := by
  rcases mem_enclose htame h with h | h | ⟨pc', kind', hlabel, heq⟩
  · simp [prologue, epilogue, instrs] at h
  · cases h.binds _ rfl
  · cases heq
    exact hlabel

/-- The code in front of the return. -/
def beforeReturn (start : UInt64) (words : List UInt32) (body : Code) : Code :=
  inner start words body ++ Line.bind .exit ::
    instrs [.aluImm .add .qword .rsp 8, .pop .r12, .pop .rbx]

theorem enclose_return (start : UInt64) (words : List UInt32) (body : Code) :
    enclose start words body =
      beforeReturn start words body ++ Line.instr .ret :: trapExits body := by
  simp [enclose, beforeReturn, inner, epilogue, instrs]

/-- **There is one return.** -/
theorem eq_beforeReturn (htame : Tame leaves body)
    (h : enclose start words body = before ++ Line.instr .ret :: after) :
    before = beforeReturn start words body := by
  -- There is none in front of it or behind it, so any split at a return is this one.
  have hinner : .instr .ret ∉ beforeReturn start words body := by
    intro hmem
    simp only [beforeReturn, inner, List.mem_append] at hmem
    rcases hmem with ((hmem | hmem) | hmem) | hmem
    · simp [prologue, instrs, Instr.mov] at hmem
    · exact (htame.usual _ hmem).noReturn rfl
    · exact (usual_fallThrough hmem).noReturn rfl
    · simp [instrs] at hmem
  have hexits : .instr .ret ∉ trapExits body := by
    intro hmem
    rcases mem_trapExits hmem with hmem | ⟨pc, kind, -, heq⟩
    · exact hmem.noReturn rfl
    · cases heq
  rw [enclose_return, List.append_cons_inj_of_notMem hinner hexits] at h
  exact h.1.symm

/-- **Every label that is jumped to has its position**, with an instruction behind it. -/
theorem exists_bound {pc : UInt64} {count : Nat} (htame : Tame (BlockExits pc count) body)
    (h : label ∈ (enclose start words body).filterMap Line.target?) :
    ∃ before after, enclose start words body = before ++ Line.bind label :: after ∧
      ∃ i, .instr i ∈ after := by
  rcases targets_enclose h with rfl | h
  · refine ⟨_, _, exit_bound start words body, .ret, ?_⟩
    simp [instrs]
  · rcases htame.leaves_of_mem h with ⟨rfl, hbound⟩ | rfl | ⟨n, -, kind, rfl⟩
    · obtain ⟨before, after, hsplit⟩ := List.append_of_mem hbound
      have hcode : enclose start words body = (prologue ++ before) ++
          Line.bind .taken ::
            (after ++ (fallThrough start words ++ (epilogue ++ trapExits body))) := by
        rw [enclose]
        nth_rewrite 1 [hsplit]
        simp
      refine ⟨_, _, hcode, .ret, ?_⟩
      simp [epilogue, instrs]
    · refine ⟨_, _, exit_bound start words body, .ret, ?_⟩
      simp [instrs]
    · obtain ⟨before, after, hcode⟩ := exists_trapExit h start words
      refine ⟨_, _, hcode, .movImm .rax (pc + 4 * n.toUInt64), ?_⟩
      simp [exitTo]

end Lines

/-! ### The bytes of a block -/

namespace Entered

variable {start : UInt64} {words : List UInt32} {body : Code} {address : Helper → UInt64}
  {image : Image} {s₀ s : Host.State} {c : Config} {offset next : Nat}

/-- What begins at a boundary is one of the lines. -/
theorem exists_line (h : Entered start words body address image s₀)
    (hoffset : Boundary image.code offset) {op : Op}
    (hop : fetch? image.code offset = some (op, next)) :
    ∃ before line after, enclose start words body = before ++ line :: after ∧
      line.Gives address (Line.Leads (enclose start words body) next) op ∧
      Line.extent before = offset ∧ next = Line.extent (before ++ [line]) := by
  obtain ⟨before, after, hcode, rfl⟩ := h.placed.exists_extent_eq hoffset
  exact h.placed.exists_line hcode hop

/-- **Jumps land on instructions.** -/
theorem lands {pc : UInt64} {count : Nat} (h : Entered start words body address image s₀)
    (htame : Tame (BlockExits pc count) body) (hoffset : Boundary image.code offset) {op : Op}
    (hop : fetch? image.code offset = some (op, next)) {distance : Int32}
    (hdistance : op.distance? = some distance) :
    ∃ target : Nat, (next : Int) + distance.toInt = target ∧ Boundary image.code target ∧
      target < image.code.size := by
  obtain ⟨before, line, after, hcode, hgives, -, hnext⟩ := h.exists_line hoffset hop
  have hle : next ≤ Line.extent (enclose start words body) := by
    rw [hnext]
    exact Line.extent_le_of_eq hcode
  have hto {label : Label} (htarget : line.target? = some label)
      (hleads : Line.Leads (enclose start words body) next label distance) :
      ∃ target : Nat, (next : Int) + distance.toInt = target ∧ Boundary image.code target ∧
        target < image.code.size := by
    have hline : line ∈ enclose start words body := by
      rw [hcode]
      simp
    obtain ⟨before', after', hbound, i, hi⟩ :=
      exists_bound htame (List.mem_filterMap.2 ⟨line, hline, htarget⟩)
    refine ⟨Line.extent before', hleads.target hbound hle h.short, h.placed.boundary hbound, ?_⟩
    have hpos := Line.extent_pos_of_mem hi
    rw [h.placed.size, hbound]
    simp
    omega
  cases hgives with
  | instr | address => cases hdistance
  | jump hleads | jumpIf hleads =>
    cases hdistance
    exact hto rfl hleads

/-- **Registers without a use are not written.** -/
theorem unwritten {leaves : Label → Prop} (h : Entered start words body address image s₀)
    (htame : Tame leaves body) (hoffset : Boundary image.code offset) {i : Instr}
    (hop : fetch? image.code offset = some (.instr i, next)) :
    ∀ r ∈ i.written, r ∉ untouched := by
  obtain ⟨before, line, after, hcode, hgives, -, -⟩ := h.exists_line hoffset hop
  have hline : line ∈ enclose start words body := by
    rw [hcode]
    simp
  have hspares := spares_of_mem htame hline
  cases hgives with
  | instr hsame =>
    cases hsame with
    | refl => exact hspares
    | constant dst imm => exact hspares
  | address dst symbol => exact hspares

/-- **There is one return** among the instructions. -/
theorem existsUnique_return {leaves : Label → Prop}
    (h : Entered start words body address image s₀) (htame : Tame leaves body) :
    ∃! offset, Boundary image.code offset ∧
      ∃ next, fetch? image.code offset = some (.instr .ret, next) := by
  have hcode := enclose_return start words body
  obtain ⟨op, hgives, hop⟩ := h.placed.line _ _ _ hcode (by simp)
  refine ⟨Line.extent (beforeReturn start words body), ⟨h.placed.boundary hcode, ?_⟩, ?_⟩
  · cases hgives with
    | instr hsame =>
      cases hsame
      exact ⟨_, hop⟩
  · rintro offset ⟨hoffset, next, hret⟩
    obtain ⟨before, line, after, hcode', hgives', rfl, -⟩ := h.exists_line hoffset hret
    cases hgives' with
    | instr hsame =>
      cases hsame
      rw [eq_beforeReturn htame hcode']

variable {n m : Nat}

/-- **A run through the exit of a trap** reports the address of the instruction. -/
theorem reports (h : Entered start words body address image s₀)
    (hbody : lowerWords start words = .ok body) {pc : UInt64} {kind : Option TrapKind}
    {before after : Code}
    (hcode : enclose start words body = before ++ Line.bind (.trap pc kind) :: after)
    (hentry : image.Run n ⟨0, s₀⟩ ⟨Line.extent before, s⟩)
    (hrun : image.Run m ⟨Line.extent before, s⟩ c) (hret : image.AtReturn c) :
    c.state.gpr .rax = pc ∧ c.state.guest = recorded pc kind s.guest := by
  have hbind : .bind (.trap pc kind) ∈ enclose start words body := by
    rw [hcode]
    simp
  have hlabel := target_of_trap (tame_lowerWords hbody) hbind
  obtain ⟨before', after', hexit⟩ := exists_trapExit hlabel start words
  -- The label may be bound in one place only, so this is its exit.
  have hextent := h.placed.bind _ _ _ _ _ hcode hexit
  have hmain : Line.extent (main start words body) ≤ Line.extent before := by
    rw [hextent]
    simp
  obtain ⟨rest, -, hreturns⟩ := (h.returns hbody).run hentry
  have hframed : Framed s₀ s := hreturns.holds.framed (.inr hmain)
  rw [hextent] at hmain hrun
  obtain ⟨rest', -, hreturns'⟩ := (h.returns_trapExit hexit hmain hframed).run hrun
  exact (hreturns'.post_of_atReturn hret).2

/-- **A run behind the last instruction** reports the address behind the block. -/
theorem reports_next (h : Entered start words body address image s₀)
    (hbody : lowerWords start words = .ok body) (hends : words.getLast?.any endsAt = false)
    (hentry : image.Run n ⟨0, s₀⟩ ⟨Line.extent (prologue ++ body), s⟩)
    (hrun : image.Run m ⟨Line.extent (prologue ++ body), s⟩ c) (hret : image.AtReturn c) :
    c.state.gpr .rax = start + 4 * words.length.toUInt64 ∧ c.state.guest = s.guest := by
  have hexit : .instr (.movImm .rax (start + 4 * words.length.toUInt64)) ∈
      fallThrough start words := by
    rw [fallThrough, hends, if_neg Bool.false_ne_true]
    exact List.mem_cons_self
  have hpos := Line.extent_pos_of_mem hexit
  have hin : InFrame start words body (Line.extent (prologue ++ body)) := by
    refine .inl ⟨?_, ?_⟩
    · simp
    · simp only [inner, Line.extent_append]
      omega
  obtain ⟨rest, -, hreturns⟩ := (h.returns hbody).run hentry
  have hframed : Framed s₀ s := hreturns.holds.framed hin
  obtain ⟨rest', -, hreturns'⟩ := (h.returns_fallThrough hends hframed).run hrun
  exact (hreturns'.post_of_atReturn hret).2

end Entered

/-! ### The convention -/

/-- The code of a block in its place, where `rdi` holds the address of the processor state. -/
def image (b : Block) (address : Helper → UInt64) (s₀ : Host.State) : Image :=
  ⟨b.object.link address, s₀.gpr .rdi, fun target => ∃ helper, address helper = target⟩

/-- The code of a block, called in the state `s₀`, keeps to the calling convention.  `body` is the
code of its instructions. -/
structure Conforms (b : Block) (body : Code) (image : Image) (s₀ : Host.State) : Prop where
  /-- Every run comes to a return: it is bounded, and it can always go on until then. -/
  returns {n : Nat} {c : Config} (h : image.Run n ⟨0, s₀⟩ c) :
    n ≤ body.length + 13 ∧ (image.AtReturn c ∨ ∃ c', image.Step c c')
  /-- It is always at the first byte of an instruction. -/
  within {n : Nat} {c : Config} (h : image.Run n ⟨0, s₀⟩ c) :
    Boundary image.code c.offset ∧ c.offset < image.code.size
  /-- A jump leads to the first byte of an instruction. -/
  lands {n : Nat} {c : Config} (h : image.Run n ⟨0, s₀⟩ c) {op : Op} {next : Nat}
    {distance : Int32} (hop : fetch? image.code c.offset = some (op, next))
    (hdistance : op.distance? = some distance) :
    ∃ target : Nat, (next : Int) + distance.toInt = target ∧ Boundary image.code target ∧
      target < image.code.size
  /-- Calls are made with an aligned stack. -/
  aligned {n : Nat} {c : Config} (h : image.Run n ⟨0, s₀⟩ c) (hcall : image.AtCall c) :
    (c.state.gpr .rsp).toNat % 16 = 0
  /-- There is one return. -/
  return_unique : ∃! offset, Boundary image.code offset ∧
    ∃ next, fetch? image.code offset = some (.instr .ret, next)
  /-- At the return, the caller finds everything as it was. -/
  restored {n : Nat} {c : Config} (h : image.Run n ⟨0, s₀⟩ c) (hret : image.AtReturn c) :
    Restored s₀ c.state
  /-- No instruction writes to the registers without a use. -/
  unwritten {offset next : Nat} (hoffset : Boundary image.code offset) {i : Instr}
    (hop : fetch? image.code offset = some (.instr i, next)) : ∀ r ∈ i.written, r ∉ untouched
  /-- They are as they were all the time. -/
  untouched {n : Nat} {c : Config} (h : image.Run n ⟨0, s₀⟩ c) :
    ∀ r ∈ untouched, c.state.gpr r = s₀.gpr r
  /-- Exits of traps belong to instructions of the block. -/
  trap {pc : UInt64} {kind : Option TrapKind}
    (h : .bind (.trap pc kind) ∈ enclose b.start b.words body) :
    ∃ k < b.size, pc = b.start + 4 * k.toUInt64
  /-- A run that leaves through one returns the address of the instruction, with the kind of the
  trap in the pending slot, if it has one, and otherwise with the guest as it was. -/
  reports {pc : UInt64} {kind : Option TrapKind} {before after : Code}
    (hcode : enclose b.start b.words body = before ++ Line.bind (.trap pc kind) :: after)
    {n m : Nat} {s : Host.State} {c : Config}
    (hentry : image.Run n ⟨0, s₀⟩ ⟨Line.extent before, s⟩)
    (hrun : image.Run m ⟨Line.extent before, s⟩ c) (hret : image.AtReturn c) :
    c.state.gpr .rax = pc ∧ c.state.guest = recorded pc kind s.guest
  /-- Up to there, only helpers change the pending slot. -/
  pending {n : Nat} {c c' : Config} (h : image.Run n ⟨0, s₀⟩ c) (hstep : image.Step c c') :
    Quiet image (Line.extent (main b.start b.words body)) c c'
  /-- A run behind the last instruction, if that does not leave, returns the address behind the
  block. -/
  reports_next (hends : b.words.getLast?.any endsAt = false) {n m : Nat} {s : Host.State}
    {c : Config} (hentry : image.Run n ⟨0, s₀⟩ ⟨Line.extent (prologue ++ body), s⟩)
    (hrun : image.Run m ⟨Line.extent (prologue ++ body), s⟩ c) (hret : image.AtReturn c) :
    c.state.gpr .rax = b.stop

theorem Entered.conforms {b : Block} {body : Code} {address : Helper → UInt64} {image : Image}
    {s₀ : Host.State} (h : Entered b.start b.words body address image s₀)
    (hbody : lowerWords b.start b.words = .ok body) : Conforms b body image s₀ := by
  have htame := tame_lowerWords hbody
  have hreturns {n : Nat} {c : Config} (hrun : image.Run n ⟨0, s₀⟩ c) :=
    (h.returns hbody).run hrun
  have horderly {n : Nat} {c : Config} (hrun : image.Run n ⟨0, s₀⟩ c) :
      Orderly image (InFrame b.start b.words body) s₀ c := by
    obtain ⟨rest, -, hrest⟩ := hreturns hrun
    exact hrest.holds
  refine
    { returns := fun hrun => ?_
      within := fun hrun => ⟨(horderly hrun).boundary, ?_⟩
      lands := fun hrun _ _ _ hop hdistance =>
        h.lands htame (horderly hrun).boundary hop hdistance
      aligned := fun hrun => (horderly hrun).aligned
      return_unique := h.existsUnique_return htame
      restored := fun hrun hret => ?_
      unwritten := h.unwritten htame
      untouched := fun hrun => (horderly hrun).untouched
      trap := fun hbind => ?_
      reports := fun hcode => h.reports hbody hcode
      pending := fun hrun hstep => ?_
      reports_next := fun hends _ _ _ _ hentry hrun hret =>
        (h.reports_next hbody hends hentry hrun hret).1 }
  · obtain ⟨rest, hle, hrest⟩ := hreturns hrun
    exact ⟨by omega, hrest.progress⟩
  · obtain ⟨rest, -, hrest⟩ := hreturns hrun
    exact hrest.lt_size
  · obtain ⟨rest, -, hrest⟩ := hreturns hrun
    exact hrest.post_of_atReturn hret
  · rcases htame.leaves_of_mem (target_of_trap htame hbind) with ⟨htaken, -⟩ | hexit | hexit
    · cases htaken
    · cases hexit
    · obtain ⟨k, hk, kind', heq⟩ := hexit
      cases heq
      exact ⟨k, hk, rfl⟩
  · obtain ⟨rest, -, hrest⟩ := hreturns hrun
    exact hrest.of_step hstep

/-- Compilation assembles the code of a block. -/
theorem exists_assemble_of_compile {start : UInt64} {words : List UInt32} {block : Block}
    (h : compile start words = .ok block) :
    ∃ body, lowerWords block.start block.words = .ok body ∧
      Line.assemble (enclose block.start block.words body) = .ok block.object := by
  obtain ⟨-, body, object, hbody, hobject, rfl⟩ := exists_body_of_compile h
  exact ⟨body, hbody, hobject⟩

/-- **Compiled blocks keep to the calling convention**, as long as their jumps can reach all of
the code. -/
theorem calling_convention {start : UInt64} {words : List UInt32} {block : Block}
    (hcompile : compile start words = .ok block) (hsize : block.object.code.size < 2 ^ 31)
    (address : Helper → UInt64) {s₀ : Host.State} (haligned : (s₀.gpr .rsp).toNat % 16 = 8) :
    block.start = start ∧ block.words = upToEnd words ∧
      ∃ body, lowerWords start block.words = .ok body ∧
        Conforms block body (block.image address s₀) s₀ := by
  obtain ⟨-, hstart, hwords⟩ := of_compile hcompile
  obtain ⟨body, hbody, hobject⟩ := exists_assemble_of_compile hcompile
  have hentered : Entered block.start block.words body address (block.image address s₀) s₀ := by
    refine ⟨Line.placed_of_assemble hobject address, ?_, rfl, fun helper => ⟨helper, rfl⟩, haligned⟩
    rwa [← Line.size_of_assemble hobject]
  exact ⟨hstart, hwords, body, hstart ▸ hbody, hentered.conforms hbody⟩

/-- A state in which a block is called. -/
def called : Host.State :=
  ((inside plainLinkage ⟨.startingAt 0x10000, .zeroed 0 0⟩).set .rdi 0x1000).set .rsp 0x7FFFFFF8

/-- The hypotheses can be met, here by a checked sum, whose code calls a helper and can leave
through the exit of a trap. -/
theorem calling_convention_checkedSum :
    ∃ block, compile 0x10000 [0x40220803] = .ok block ∧ block.object.code.size < 2 ^ 31 ∧
      (called.gpr .rsp).toNat % 16 = 8 ∧ block.start = 0x10000 ∧
      block.words = upToEnd [0x40220803] ∧
      ∃ body, lowerWords 0x10000 block.words = .ok body ∧
        Conforms block body (block.image plainLinkage.address called) called := by
  have hsize : (compile 0x10000 [0x40220803]).toOption.map (·.object.code.size) = some 147 := by
    decide +kernel
  cases hcompile : compile 0x10000 [0x40220803] with
  | error err =>
    rw [hcompile] at hsize
    cases hsize
  | ok block =>
    rw [hcompile] at hsize
    have hlt : block.object.code.size < 2 ^ 31 := by
      have heq : block.object.code.size = 147 := Option.some.inj hsize
      omega
    have haligned : (called.gpr .rsp).toNat % 16 = 8 := by decide
    exact ⟨block, rfl, hlt, haligned,
      calling_convention hcompile hlt plainLinkage.address haligned⟩

/-! ### Blocks that are too long -/

/-- The code of a sum of two registers. -/
def addition : List Instr :=
  [.load .rax .rbx (field (Layout.int 1)), .load .rcx .rbx (field (Layout.int 2)),
   .alu .add .qword .rax .rcx, .store .rbx (field (Layout.int 3)) .rax]

/-- An instruction that can trap, and as many sums behind it. -/
def overlong (count : Nat) : List UInt32 := 0x703F0E03 :: .replicate count 0x40220403

/-- What its code does behind the check for a trap. -/
def unchecked (count : Nat) : List Instr :=
  .load .rax .rbx (field (Layout.fp 1)) :: .store .rbx (field (Layout.int 3)) .rax ::
    (List.replicate count addition).flatten

/-- Its code. -/
def overlongBody (start : UInt64) (count : Nat) : Code :=
  checkFp start ++ instrs (unchecked count)

theorem instrs_append (l l' : List Instr) : instrs (l ++ l') = instrs l ++ instrs l' :=
  List.map_append

/-- The instructions of the prologue. -/
def entry : List Instr :=
  [.push .rbx, .push .r12, .aluImm .sub .qword .rsp 8, .mov .qword .rbx .rdi, .mov .qword .r12 .rsi]

/-- The test whether floating instructions are enabled. -/
def testFp : Instr := .cmpMemByte .rbx (field Layout.fpEnabled) 0

theorem operation_addition :
    Operation.ofInstruction? (.decode 0x40220403) = some (.operate (.arith .add 0 .quad)) :=
  Operation.ofInstruction?_of_registered ⟨.intA, some 0x20⟩ rfl (by decide)

theorem operation_moveFromFloat :
    Operation.ofInstruction? (.decode 0x703F0E03) = some (.operate (.moveFromFloat .double)) :=
  Operation.ofInstruction?_of_registered ⟨.fpti, some 0x70⟩ rfl (by decide)

section Overlong

variable (start : UInt64) (count : Nat)

theorem lowerWords_additions (pc : UInt64) : lowerWords pc (.replicate count 0x40220403) =
    .ok (instrs (List.replicate count addition).flatten) := by
  have hcode (pc : UInt64) : lowerWord? pc 0x40220403 = some (instrs addition) := by
    simp only [lowerWord?_eq, operation_addition, Option.map_some]
    rfl
  induction count generalizing pc with
  | zero => rfl
  | succ count ih =>
    rw [List.replicate_succ, lowerWords, hcode, List.replicate_succ, List.flatten_cons,
      instrs_append]
    simp only [ih]
    rfl

theorem lowerWords_overlong :
    lowerWords start (overlong count) = .ok (overlongBody start count) := by
  have hcode : lowerWord? start 0x703F0E03 =
      some (checkFp start ++ loadFp .rax 1 ++ storeInt 3 .rax) := by
    simp only [lowerWord?_eq, operation_moveFromFloat, Option.map_some]
    rfl
  rw [overlong, lowerWords, hcode]
  simp only [lowerWords_additions]
  rfl

theorem upToEnd_overlong : upToEnd (overlong count) = overlong count := by
  have hfirst : false = endsAt 0x703F0E03 := Operation.leavesLine_eq operation_moveFromFloat
  have hnext : false = endsAt 0x40220403 := Operation.leavesLine_eq operation_addition
  have hrest : upToEnd (.replicate count 0x40220403) = .replicate count 0x40220403 := by
    induction count with
    | zero => rfl
    | succ count ih =>
      rw [List.replicate_succ, upToEnd, ← hnext, if_neg Bool.false_ne_true, ih]
  rw [overlong, upToEnd, ← hfirst, if_neg Bool.false_ne_true, hrest]

theorem extent_unchecked : Line.extent (instrs (unchecked count)) = 14 + 24 * count := by
  have hsums : Line.extent (instrs (List.replicate count addition).flatten) = 24 * count := by
    induction count with
    | zero => rfl
    | succ count ih =>
      have hsum : Line.extent (instrs addition) = 24 := rfl
      rw [List.replicate_succ, List.flatten_cons, instrs_append, Line.extent_append, hsum, ih]
      omega
  have hfirst : Line.extent (instrs (unchecked count)) =
      7 + (7 + Line.extent (instrs (List.replicate count addition).flatten)) := rfl
  omega

theorem trapExits_overlong :
    trapExits (overlongBody start count) = trapExit start (some .floatDisabled) := by
  rw [trapExits, overlongBody, List.filterMap_append, filterMap_instrs fun i => rfl]
  rfl

theorem enclose_overlong : enclose start (overlong count) (overlongBody start count) =
    main start (overlong count) (overlongBody start count) ++
      trapExit start (some .floatDisabled) := by
  rw [enclose, trapExits_overlong, main, inner]

/-- Long blocks can be compiled. -/
theorem exists_compile_overlong : ∃ block, compile start (overlong count) = .ok block := by
  have hbody : lowerWords start (upToEnd (overlong count)) = .ok (overlongBody start count) := by
    rw [upToEnd_overlong, lowerWords_overlong]
  obtain ⟨object, -, hcompile⟩ := exists_compile_eq (List.cons_ne_nil _ _) hbody
  exact ⟨_, hcompile⟩

theorem extent_exitTo_le (target : UInt64) : Line.extent (exitTo target) ≤ 15 := by
  have hwidth : (Instr.encodeMovImm .rax target).length ≤ 10 := by
    unfold Instr.encodeMovImm
    split
    · exact (by decide : 5 ≤ 10)
    · split
      · exact (by decide : 7 ≤ 10)
      · exact (by decide : 10 ≤ 10)
  exact Nat.add_le_add_right hwidth 5

/-- How far the exit of the trap is from the first byte. -/
theorem extent_main_overlong :
    24 * count + 52 ≤ Line.extent (main start (overlong count) (overlongBody start count)) ∧
      Line.extent (main start (overlong count) (overlongBody start count)) ≤ 24 * count + 72 := by
  have hprologue : Line.extent prologue = 16 := by decide
  have hcheck : Line.extent (checkFp start) = 13 := rfl
  have hepilogue : Line.extent epilogue = 11 := by decide
  have hthrough : Line.extent (fallThrough start (overlong count)) ≤ 15 := by
    rw [fallThrough]
    split
    · exact Nat.zero_le _
    · exact extent_exitTo_le _
  simp only [main, inner, overlongBody, Line.extent_append, hprologue, hcheck, hepilogue,
    extent_unchecked]
  omega

variable {start count} {address : Helper → UInt64} {image : Image} {s₀ : Host.State}

/-- A block that begins with a check for a trap comes to its jump. -/
theorem exists_run_checkFp {code : Code}
    (hplaced : Line.Placed (prologue ++ (checkFp start ++ code)) address image.code)
    (hbase : image.base = s₀.gpr .rdi) :
    ∃ s, image.Run 6 ⟨0, s₀⟩ ⟨Line.extent (prologue ++ [Line.instr testFp]), s⟩ := by
  obtain ⟨s₁, hentry, hrbx⟩ : ∃ s₁,
      entry.foldlM (fun s i => i.step (alone image.base) s) s₀ = some s₁ ∧
        s₁.gpr .rbx = s₀.gpr .rdi := ⟨_, rfl, rfl⟩
  have hplain : plain testFp = true := by decide
  obtain ⟨s₂, hcompare, -⟩ := exists_calm_of_plain hplain (hrbx.trans hbase.symm)
  have hsteps : (entry ++ [testFp]).foldlM
      (fun s i => i.step (alone image.base) s) s₀ = some s₂ := by
    rw [List.foldlM_append, hentry]
    simpa using hcompare
  have hcode : prologue ++ (checkFp start ++ code) = [] ++
      ((entry ++ [testFp]).map .instr ++
        Line.jumpIf .e (.trap start (some .floatDisabled)) :: code) := rfl
  have hbefore : [] ++ (entry ++ [testFp]).map .instr = prologue ++ [Line.instr testFp] := rfl
  have hrun := hplaced.run_instrs hcode hsteps
  rw [hbefore] at hrun
  exact ⟨s₂, hrun⟩

/-- A distance that needs one bit more wraps around. -/
theorem toInt_ofInt_of_le {distance : Int} (hlow : 2 ^ 31 ≤ distance) (hhigh : distance < 2 ^ 32) :
    (Int32.ofInt distance).toInt = distance - 2 ^ 32 := by
  have h32 : (Int32.size : Int) = 2 ^ 32 := rfl
  rw [Int32.toInt_ofInt, Int.bmod_def, h32, Int.emod_eq_of_lt (by omega) hhigh, if_neg (by omega)]

/-- Where the distance of a jump does not fit into 32 bits, it leads in front of the code. -/
theorem not_conforms_overlong {block : Block}
    (hcompile : compile start (overlong count) = .ok block) (hlow : 2 ^ 31 ≤ 24 * count)
    (hhigh : 24 * count + 72 < 2 ^ 32) (body : Code) :
    ¬ Conforms block body (block.image address s₀) s₀ := by
  intro h
  obtain ⟨-, hstart, hwords⟩ := of_compile hcompile
  obtain ⟨body', hbody, hobject⟩ := exists_assemble_of_compile hcompile
  rw [hstart, hwords, upToEnd_overlong] at hbody hobject
  cases (lowerWords_overlong start count).symm.trans hbody
  have hplaced := Line.placed_of_assemble hobject address
  have hcode : enclose start (overlong count) (overlongBody start count) =
      prologue ++ (checkFp start ++ (instrs (unchecked count) ++
        (fallThrough start (overlong count) ++ (epilogue ++
          trapExits (overlongBody start count))))) := by
    simp [enclose, overlongBody]
  have hrun : ∃ s, (block.image address s₀).Run 6 ⟨0, s₀⟩
      ⟨Line.extent (prologue ++ [Line.instr testFp]), s⟩ := by
    rw [hcode] at hplaced
    exact exists_run_checkFp hplaced rfl
  obtain ⟨s, hrun⟩ := hrun
  -- The first jump, which should lead to the exit of the trap.
  obtain ⟨op, hgives, hop⟩ := hplaced.line (prologue ++ [Line.instr testFp])
    (.jumpIf .e (Label.trap start (some .floatDisabled))) _ hcode (by simp)
  have hnext : Line.extent (prologue ++ [Line.instr testFp] ++
      [Line.jumpIf .e (Label.trap start (some .floatDisabled))]) = 29 := rfl
  obtain ⟨hfar, hnear⟩ := extent_main_overlong start count
  cases hgives with
  | jumpIf hleads =>
    obtain ⟨target, htarget, -⟩ := h.lands hrun hop rfl
    rw [hleads _ _ (enclose_overlong start count), hnext, toInt_ofInt_of_le (by omega) (by omega)]
      at htarget
    omega

end Overlong

/-- **The convention needs short code**: behind the first jump of this block there are more than
2 GiB of sums, in front of the exit that it should lead to. -/
theorem calling_convention_overlong :
    ∃ block, compile 0x10000 (overlong 100000000) = .ok block ∧
      (called.gpr .rsp).toNat % 16 = 8 ∧
      ¬ ∃ body, lowerWords 0x10000 block.words = .ok body ∧
        Conforms block body (block.image plainLinkage.address called) called := by
  obtain ⟨block, hcompile⟩ := exists_compile_overlong 0x10000 100000000
  refine ⟨block, hcompile, by decide, ?_⟩
  rintro ⟨body, -, hconforms⟩
  exact not_conforms_overlong hcompile (by decide) (by decide) body hconforms

end Block

end AlphaMachine
