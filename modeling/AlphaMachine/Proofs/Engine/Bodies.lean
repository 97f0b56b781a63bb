import AlphaMachine.Proofs.Block.Calling
import AlphaMachine.Proofs.Block.Instructions
import AlphaMachine.Proofs.Engine.Transparency

/-!
# The code of whole blocks

The code of a block is that of its instructions, one after the other, with the way on behind it.
Here the code is run as a whole.  A completed instruction runs on into the code of the next one; an
instruction that traps or ends the block is on the way out, and passes over the code of the others,
because no instruction binds the label of another one's way out (`Block.execFrom_of_finish`).

* `Block.leaves_words` : consecutive instructions, by induction on them;
* `Block.leaves_of_compile` : a compiled block leaves what the run of its instructions says.
-/

namespace AlphaMachine

namespace Block

open Host

variable {link : Linkage} {s s₁ s' : Host.State} {pc : UInt64} {word : UInt32}
  {words : List UInt32} {code rest body : Code} {position : Position}

/-! ### Leaving code -/

theorem exec_append (link : Linkage) (code rest : Code) (s : Host.State) :
    exec link (code ++ rest) s = (exec link code s).bind (execFrom link rest) :=
  execFrom_append link code rest (none, s)

/-- On the way out, the code of other instructions is passed over. -/
theorem execFrom_of_finish (hcode : ∀ line ∈ code, Usual line)
    (h : finish link position = some (some .exit, s')) :
    execFrom link code position = some position := by
  obtain ⟨_ | label, s₁⟩ := position
  · cases h
  · -- Instructions only bind the label of a branch, which is not a way out.
    refine execFrom_of_unbound (fun line hline hbind => ?_) s₁
    have htaken : label = .taken := (hcode line hline).binds label hbind
    subst htaken
    cases h

/-- The code is left for the exit in the end, and leaves behind a machine, an address in the return
register and whether code has to be discarded. -/
def Leaves (link : Linkage) (code : Code) (s : Host.State)
    (left : Machine × UInt64 × Bool) : Prop :=
  ∃ position s', exec link code s = some position ∧ finish link position = some (some .exit, s') ∧
    Kept s s' ∧ (s'.guest, s'.gpr .rax, s'.flush) = left

namespace Leaves

variable {left : Machine × UInt64 × Bool}

/-- What follows the code does not matter. -/
theorem append (h : Leaves link code s left) (hrest : ∀ line ∈ rest, Usual line) :
    Leaves link (code ++ rest) s left := by
  obtain ⟨position, s', hexec, hfinish, hkept, hleft⟩ := h
  have happend : exec link (code ++ rest) s = some position := by
    rw [exec_append, hexec, Option.bind_some, execFrom_of_finish hrest hfinish]
  exact ⟨position, s', happend, hfinish, hkept, hleft⟩

/-- Code that runs on into the code behind it. -/
theorem after (h : Leaves link rest s₁ left) (hexec : exec link code s = some (none, s₁))
    (hkept : Kept s s₁) : Leaves link (code ++ rest) s left := by
  obtain ⟨position, s', hrest, hfinish, hkept', hleft⟩ := h
  have happend : exec link (code ++ rest) s = some position := by
    rw [exec_append, hexec, Option.bind_some]
    exact hrest
  exact ⟨position, s', happend, hfinish, hkept.trans hkept', hleft⟩

theorem exitTo (link : Linkage) (s : Host.State) (target : UInt64) :
    Leaves link (exitTo target) s (s.guest, target, s.flush) := by
  have hexec : exec link (Block.exitTo target ++ []) s = _ :=
    exec_exitTo target (unbound_nil .exit)
  rw [List.append_nil] at hexec
  exact ⟨_, _, hexec, rfl, ⟨rfl, rfl, rfl, rfl⟩, rfl⟩

end Leaves

/-! ### Instructions -/

/-- The code of a word has the effect of the word. -/
theorem realizes_of_lowerWord? (h : lowerWord? pc word = some code) (hs : Ready link s) :
    Realizes link code pc (endsAt word) s (link.outcome s.guest word pc) := by
  rw [lowerWord?_eq, Option.map_eq_some_iff] at h
  obtain ⟨op, hop, rfl⟩ := h
  exact realizes_of_operation hop pc hs

/-- The count with which the helper executes a word is that of the block. -/
theorem Linkage.outcome_eq_runWord {m : Machine} (h : m.cpu.cycles = link.cycles) (word : UInt32)
    (pc : UInt64) : link.outcome m word pc = runWord link.start pc word m := by
  rw [Linkage.outcome, Linkage.cyclesAt, Engine.runWord_eq_map, h]

theorem of_lowerWords_cons (h : lowerWords pc (word :: words) = .ok body) :
    ∃ code rest, lowerWord? pc word = some code ∧ lowerWords (pc + 4) words = .ok rest ∧
      body = code ++ rest := by
  unfold lowerWords at h
  split at h
  · cases h
  · next code hcode =>
    cases hrest : lowerWords (pc + 4) words with
    | error err =>
      rw [hrest] at h
      cases h
    | ok rest =>
      rw [hrest] at h
      cases h
      exact ⟨code, rest, hcode, rfl, rfl⟩

/-! ### The way on -/

/-- Behind an instruction that does not end the block, the way on is that of the others. -/
theorem fallThrough_cons (hends : endsAt word = false) (pc : UInt64) (words : List UInt32) :
    fallThrough pc (word :: words) = fallThrough (pc + 4) words := by
  have htarget : pc + 4 * (word :: words).length.toUInt64 = pc + 4 + 4 * words.length.toUInt64 :=
    address_succ pc words.length
  cases words with
  | nil =>
    rw [fallThrough, fallThrough, htarget, List.getLast?_singleton, Option.any_some, hends]
    rfl
  | cons next words => rw [fallThrough, fallThrough, List.getLast?_cons_cons, htarget]

/-! ### Runs -/

/-- What code leaves behind if its instructions end like this: a trap is in the pending slot, with
the address of its instruction in the return register. -/
def left (flush : Bool) : Machine × Except Trap (UInt64 × Bool) → Machine × UInt64 × Bool
  | (m, .ok (next, discard)) => (m, next, flush || discard)
  | (m, .error trap) => (pend m trap, trap.pc, flush)

/-- An instruction that traps is the last of its run. -/
theorem leaves_trapped {m : Machine} {trap : Trap}
    (hword : Realizes link code pc (endsAt word) s (.trapped m trap)) (htrap : trap.pc = pc)
    (hrun : runWord link.start pc word s.guest = .trapped m trap) :
    Leaves link code s (left s.flush (runWords link.start pc (word :: words) s.guest)) := by
  obtain ⟨position, s', hexec, hfinish, hkept, hguest, hflush, hrax⟩ := hword
  refine ⟨position, s', hexec, hfinish, hkept, ?_⟩
  rw [runWords_of_trapped hrun, left, hguest, hflush, hrax, htrap]

/-- An instruction that ends the block says where to go on. -/
theorem leaves_ended {m : Machine} {flow : Flow} (hword : Completes link code pc true s m flow)
    (hrun : runWord link.start pc word s.guest = .done m flow) :
    Leaves link code s (left s.flush (runWords link.start pc [word] s.guest)) := by
  obtain ⟨s', hexec, hkept, hguest, hflush, hrax⟩ := hword
  refine ⟨_, s', hexec, rfl, hkept, ?_⟩
  rw [runWords_of_last hrun, left, hguest, hflush]
  exact congrArg (fun next => (m, next, _)) hrax

/-- **The code of consecutive instructions has the effect of running them**, if only the last one
can end a block. -/
theorem leaves_words (hs : Ready link s) (hcycles : s.guest.cpu.cycles = link.cycles)
    (hbody : lowerWords pc words = .ok body)
    (hends : ∀ word ∈ words.dropLast, endsAt word = false) :
    Leaves link (body ++ fallThrough pc words) s
      (left s.flush (runWords link.start pc words s.guest)) := by
  induction words generalizing pc s body with
  | nil =>
    cases hbody
    have hexit := Leaves.exitTo link s (pc + 4 * (0 : Nat).toUInt64)
    rw [address_zero] at hexit
    simpa [left, runWords, fallThrough, address_zero] using hexit
  | cons word words ih =>
    obtain ⟨code, rest, hcode, hrest, rfl⟩ := of_lowerWords_cons hbody
    have hword := realizes_of_lowerWord? hcode hs
    have hkeeps := link.outcome_keeps s.guest word pc
    rw [Linkage.outcome_eq_runWord hcycles] at hword hkeeps
    have husual : ∀ line ∈ rest ++ fallThrough pc (word :: words), Usual line :=
      fun line hline => (List.mem_append.1 hline).elim ((tame_lowerWords hrest).usual line)
        usual_fallThrough
    rw [List.append_assoc]
    cases hrun : runWord link.start pc word s.guest with
    | trapped m trap =>
      rw [hrun] at hword hkeeps
      exact (leaves_trapped hword hkeeps.2 hrun).append husual
    | done m flow =>
      rw [hrun] at hword hkeeps
      cases hendsWord : endsAt word with
      | true =>
        rw [hendsWord] at hword
        cases words with
        | nil => exact (leaves_ended hword hrun).append husual
        | cons next words =>
          -- Only the last instruction can end the block.
          rw [hends word List.mem_cons_self] at hendsWord
          cases hendsWord
      | false =>
        -- The next instruction finds the block as this one did: nothing is pending, and the cycle
        -- count is the one that the block was entered with.
        rw [hendsWord] at hword
        obtain ⟨s₁, hexec, hkept, rfl, hflush, rfl⟩ := hword
        have hflush' : s₁.flush = s.flush := by simpa using hflush
        have hready : Ready link s₁ := ⟨hkept.rbx.trans hs.state, hkept.r12.trans hs.frame,
          hkeeps.pendingTrap.trans hs.pending⟩
        have hends' : ∀ word ∈ words.dropLast, endsAt word = false := by
          intro word hmem
          cases words with
          | nil => cases hmem
          | cons next words => exact hends word (List.mem_cons_of_mem _ hmem)
        rw [fallThrough_cons hendsWord, runWords, hrun, ← hflush']
        exact (ih hready (hkeeps.cycles.trans hcycles) hrest hends').after hexec hkept

/-- **The code of a compiled block has the effect of running its instructions.** -/
theorem leaves_of_compile {start : UInt64} {b : Block} (hcompile : compile start words = .ok b)
    (hstart : link.start = b.start) (hs : Ready link s)
    (hcycles : s.guest.cpu.cycles = link.cycles) :
    ∃ body, lowerWords b.start b.words = .ok body ∧
      Leaves link (body ++ fallThrough b.start b.words) s
        (left s.flush (runWords b.start b.start b.words s.guest)) := by
  obtain ⟨-, body, object, hbody, -, rfl⟩ := exists_body_of_compile hcompile
  have hleaves := leaves_words hs hcycles hbody fun word hmem => endsAt_of_mem_dropLast hmem
  rw [hstart] at hleaves
  exact ⟨body, hbody, hleaves⟩

end Block

end AlphaMachine
