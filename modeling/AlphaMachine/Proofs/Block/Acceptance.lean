import AlphaMachine.Proofs.Block.Accesses
import AlphaMachine.Proofs.Block.Discipline
import AlphaMachine.Proofs.Block.Floating
import AlphaMachine.Proofs.Host.Labels
import Mathlib.Data.List.TakeDrop

/-!
# Which blocks can be compiled

Compilation can fail for two reasons: a word has no operation, or the code cannot be assembled.  The
second never happens.  Assembling only fails over labels, and the labels of a block are in order
(`Block.closed_enclose`): every trap that the code jumps to has one exit, the way out has one
position, and only a conditional branch binds a label of its own, behind which no other instruction
follows.

* `Block.exists_compile_eq` : a block whose words have code is compiled;
* `Block.assemble_of_compile` : linking a block does what assembling it with the addresses of the
  helpers would do;
* `Block.compile_accepts` : what becomes of any list of words.
-/

namespace AlphaMachine

namespace Block

open Host

/-! ### Positions of labels -/

/-- The labels whose positions are in some code. -/
def positions (code : Code) : List Label := code.filterMap Line.bound?

variable {pc start : UInt64} {word : UInt32} {words : List UInt32} {code body : Code}
  {label : Label}

@[simp] theorem positions_append (code code' : Code) :
    positions (code ++ code') = positions code ++ positions code' := List.filterMap_append

/-- There are no positions in code in which every label is unbound. -/
theorem positions_eq_nil (h : ∀ label, Unbound label code) : positions code = [] := by
  refine List.filterMap_eq_nil_iff.2 fun line hline => ?_
  cases line with
  | bind label => exact absurd rfl (h label _ hline)
  | instr | address | jump | jumpIf => rfl

theorem filterMap_instrs {f : Line Label Helper → Option Label}
    (hf : ∀ i, f (.instr i) = none) (l : List Instr) : (instrs l).filterMap f = [] := by
  rw [List.filterMap_eq_nil_iff]
  intro line hline
  obtain ⟨i, -, rfl⟩ := List.mem_map.1 hline
  exact hf i

/-! ### Positions in the code of an instruction -/

section Instructions

@[simp] theorem unbound_checkFp : Unbound label (checkFp pc) := by simp [checkFp]

@[simp] theorem unbound_call (helper : Helper) : Unbound label (call helper) := by simp [call]

@[simp] theorem unbound_exitTo (target : UInt64) : Unbound label (exitTo target) := by
  simp [exitTo]

@[simp] theorem unbound_address (dst : Gpr) (rb : Reg) (offset : Int32) :
    Unbound label (address dst rb offset) := by
  unfold address
  split <;> simp

theorem unbound_interpret (endsBlock : Bool) :
    Unbound label (interpret pc word endsBlock) := by
  cases endsBlock <;> simp [interpret]

theorem unbound_of_operate {op : OperateOp} {ra : Reg} {rb : Operand} {rc : Reg}
    (h : op.lower? pc ra rb rc = some code) : Unbound label code := by
  cases op with
  | moveIf condition =>
    simp only [OperateOp.lower?] at h
    split at h <;> cases h <;> simp
  | moveFromFloat precision => cases precision <;> cases h; simp
  | _ => cases h <;> simp

theorem unbound_of_float {op : FloatOp} {fa fb fc : Reg} (h : op.lower? pc fa fb fc = some code) :
    Unbound label code := by
  cases op with
  | moveFromInt precision => cases precision <;> cases h; simp
  | arith op precision =>
    cases h
    cases op <;> simp
  | _ => cases h <;> simp

theorem unbound_of_memory {op : MemoryOp} {ra rb : Reg} {displacement : Int16}
    (h : op.lower? pc ra rb displacement = some code) : Unbound label code := by
  have hload (size : AccessSize) (alignDown : Bool) :
      Unbound label (loadToInt pc ra rb displacement size alignDown) := by
    unfold loadToInt
    split
    · simp
    · split <;> simp
  cases op with
  | load size | loadUnaligned =>
    cases h
    exact hload _ _
  | floatLoad precision =>
    cases precision <;> cases h
    split <;> simp
  | floatStore precision => cases precision <;> cases h; simp
  | _ => cases h <;> simp

/-- Conditional branches bind one label, and no other operation binds any. -/
theorem positions_branch (op : BranchOp) (pc : UInt64) (ra : Reg) (displacement : Int) :
    positions (op.lower pc ra displacement) = [] ∨
      positions (op.lower pc ra displacement) = [.taken] := by
  cases op with
  | link =>
    refine .inl (positions_eq_nil fun label => ?_)
    simp [BranchOp.lower]
  | onInt condition =>
    right
    simp only [BranchOp.lower, positions_append, branchOn]
    rw [positions_eq_nil fun label => unbound_loadInt label ra .rax,
      positions_eq_nil fun label => unbound_instrs label [condition.test .rax]]
    rfl
  | onFloat condition =>
    right
    simp only [BranchOp.lower, positions_append, branchOn]
    rw [positions_eq_nil fun label => unbound_checkFp,
      positions_eq_nil fun label => unbound_loadFp label ra .rax,
      positions_eq_nil fun label => unbound_instrs label condition.test]
    rfl

/-- **Only words that end a block bind a label**, and at most one. -/
theorem positions_lowerWord (h : lowerWord? pc word = some code) :
    positions code = [] ∨ endsAt word = true ∧ positions code = [.taken] := by
  rw [lowerWord?_eq] at h
  obtain ⟨op, hop, rfl⟩ := Option.map_eq_some_iff.1 h
  cases hlower : op.lower? pc (.decode word) with
  | none => exact .inl (positions_eq_nil fun label => unbound_interpret (endsAt word))
  | some code =>
    have hends : op.leavesLine = endsAt word := Operation.leavesLine_eq hop
    unfold Operation.lower? at hlower
    split at hlower
    · exact .inl (positions_eq_nil fun label => unbound_of_operate hlower)
    · exact .inl (positions_eq_nil fun label => unbound_of_float hlower)
    · exact .inl (positions_eq_nil fun label => unbound_of_memory hlower)
    · cases hlower
      exact (positions_branch ..).imp_right fun h => ⟨hends.symm, h⟩
    · cases hlower

end Instructions

/-! ### Positions in a block -/

/-- **The instructions of a block bind one label at most.** -/
theorem positions_lowerWords (h : lowerWords pc (upToEnd words) = .ok body) :
    positions body = [] ∨ positions body = [.taken] := by
  induction words generalizing pc body with
  | nil =>
    cases h
    exact .inl rfl
  | cons word rest ih =>
    rw [upToEnd, lowerWords] at h
    split at h
    · cases h
    · next first hfirst =>
      rcases positions_lowerWord hfirst with hnone | ⟨hends, htaken⟩
      · cases hrest : lowerWords (pc + 4) (if endsAt word then [] else upToEnd rest) with
        | error err =>
          rw [hrest] at h
          cases h
        | ok code =>
          rw [hrest] at h
          cases h
          rw [positions_append, hnone, List.nil_append]
          cases hends : endsAt word with
          | true =>
            rw [hends] at hrest
            cases hrest
            exact .inl rfl
          | false =>
            rw [hends] at hrest
            exact ih hrest
      · rw [hends] at h
        cases h
        have hlast : positions (first ++ []) = [.taken] := by rw [List.append_nil, htaken]
        exact .inr hlast

/-- The exits of traps have the positions of the traps. -/
theorem positions_trapExits (body : Code) :
    positions (trapExits body) =
      (body.filterMap Line.target?).eraseDups.filter fun label => (trapExit? label).isSome := by
  unfold trapExits
  induction (body.filterMap Line.target?).eraseDups with
  | nil => rfl
  | cons label rest ih =>
    cases label with
    | exit | taken => exact ih
    | trap pc kind =>
      have hexit : positions (trapExit pc kind) = [.trap pc kind] := by
        cases kind <;> rfl
      have hcons : ((Label.trap pc kind :: rest).filterMap trapExit?).flatten =
          trapExit pc kind ++ (rest.filterMap trapExit?).flatten := rfl
      rw [hcons, positions_append, hexit, ih]
      rfl

theorem positions_enclose (start : UInt64) (words : List UInt32) (body : Code) :
    positions (enclose start words body) =
      positions body ++ .exit :: positions (trapExits body) := by
  have honward : positions (fallThrough start words) = [] := by
    rw [fallThrough]
    split <;> rfl
  have hprologue : positions prologue = [] := rfl
  have hepilogue : positions epilogue = [.exit] := rfl
  simp [enclose, honward, hprologue, hepilogue]

/-! ### Labels of a block -/

theorem targets_trapExits (h : label ∈ (trapExits body).filterMap Line.target?) :
    label = .exit := by
  obtain ⟨line, hline, htarget⟩ := List.mem_filterMap.1 h
  obtain ⟨code, hcode, hline⟩ := List.mem_flatten.1 hline
  obtain ⟨label', -, hexit⟩ := List.mem_filterMap.1 hcode
  cases label' with
  | exit | taken => cases hexit
  | trap pc kind =>
    cases hexit
    have htargets : (trapExit pc kind).filterMap Line.target? = [.exit] := by
      cases kind <;> rfl
    have hmem := List.mem_filterMap.2 ⟨line, hline, htarget⟩
    rwa [htargets, List.mem_singleton] at hmem

/-- The labels that the code of a block jumps to. -/
theorem targets_enclose (h : label ∈ (enclose start words body).filterMap Line.target?) :
    label = .exit ∨ label ∈ body.filterMap Line.target? := by
  simp only [enclose, List.filterMap_append, List.mem_append] at h
  rcases h with (((h | h) | h) | h) | h
  · cases h
  · exact .inr h
  · rw [fallThrough] at h
    split at h
    · cases h
    · exact .inl (List.mem_singleton.1 h)
  · cases h
  · exact .inl (targets_trapExits h)

/-- **The labels of a block are in order**: none has two positions, and all that the code jumps to
have one. -/
theorem closed_enclose (h : lowerWords start (upToEnd words) = .ok body) :
    Line.Closed (enclose start (upToEnd words) body) := by
  have htame := tame_lowerWords h
  have hpositions := positions_enclose start (upToEnd words) body
  unfold positions at hpositions
  refine ⟨?_, fun label hlabel => ?_⟩
  · have htraps : (Label.exit :: positions (trapExits body)).Nodup := by
      rw [positions_trapExits, List.nodup_cons]
      refine ⟨fun hmem => ?_, (Line.nodup_eraseDups _).filter _⟩
      cases (List.mem_filter.1 hmem).2
    rw [hpositions]
    rcases positions_lowerWords h with hnone | htaken
    · unfold positions at hnone
      rwa [hnone, List.nil_append]
    · unfold positions at htaken
      rw [htaken, List.singleton_append, List.nodup_cons]
      refine ⟨fun hmem => ?_, htraps⟩
      rcases List.mem_cons.1 hmem with heq | hmem
      · cases heq
      · rw [← positions, positions_trapExits] at hmem
        cases (List.mem_filter.1 hmem).2
  · rw [hpositions, List.mem_append, List.mem_cons]
    rcases targets_enclose hlabel with rfl | hlabel
    · exact .inr (.inl rfl)
    · rcases htame.leaves_of_mem hlabel with ⟨rfl, hbound⟩ | rfl | ⟨n, -, kind, rfl⟩
      · exact .inl (List.mem_filterMap.2 ⟨_, hbound, rfl⟩)
      · exact .inr (.inl rfl)
      · refine .inr (.inr ?_)
        rw [← positions, positions_trapExits]
        exact List.mem_filter.2 ⟨List.mem_eraseDups.2 hlabel, rfl⟩

/-- **A block whose words have code is compiled.** -/
theorem exists_compile_eq (hne : words ≠ []) (h : lowerWords start (upToEnd words) = .ok body) :
    ∃ object, Line.assemble (enclose start (upToEnd words) body) = .ok object ∧
      compile start words = .ok ⟨start, upToEnd words, object⟩ := by
  obtain ⟨object, hobject⟩ := (closed_enclose h).exists_assemble_eq
  refine ⟨object, hobject, ?_⟩
  rw [compile_eq, if_neg (by simpa using hne), h]
  simp only [Except.bind, hobject]
  rfl

/-- Wide addresses of helpers are loaded as any other constant: the linked code of a block is what
comes of assembling it with the addresses as operands. -/
theorem assemble_of_compile {block : Block} (h : compile start words = .ok block)
    {address : Helper → UInt64} (hwide : ∀ helper, Instr.IsWide (address helper)) :
    ∃ body, lowerWords start block.words = .ok body ∧
      Line.assemble ((enclose start block.words body).map (Line.resolved address)) =
        .ok ⟨block.object.link address, []⟩ := by
  obtain ⟨-, body, object, hbody, hobject, rfl⟩ := exists_body_of_compile h
  exact ⟨body, hbody, (closed_enclose hbody).assemble_resolved hwide hobject⟩

/-! ### All lists of words -/

/-- The word has an operation, so it can be executed. -/
def handled (word : UInt32) : Bool := (Operation.ofInstruction? (.decode word)).isSome

/-- The index of the last word of the block that begins here: the first that ends a block, or the
last there is. -/
def lastIndex (words : List UInt32) : Nat := min (words.findIdx endsAt) (words.length - 1)

theorem upToEnd_eq_take (words : List UInt32) :
    upToEnd words = words.take (lastIndex words + 1) := by
  induction words with
  | nil => rfl
  | cons word rest ih =>
    rw [upToEnd, List.take_succ_cons]
    cases hends : endsAt word with
    | true => simp [lastIndex, List.findIdx_cons, hends]
    | false =>
      have hindex : lastIndex (word :: rest) = min (rest.findIdx endsAt + 1) rest.length := by
        simp [lastIndex, List.findIdx_cons, hends]
      rw [if_neg Bool.false_ne_true, ih, hindex]
      cases rest with
      | nil => rfl
      | cons next rest =>
        have hsucc : lastIndex (next :: rest) + 1 =
            min ((next :: rest).findIdx endsAt + 1) (next :: rest).length := by
          simp only [lastIndex, List.length_cons]
          omega
        rw [hsucc]

theorem lastIndex_lt (h : words ≠ []) : lastIndex words < words.length := by
  have hpos := List.length_pos_iff.2 h
  unfold lastIndex
  omega

/-- Words that can be executed have code. -/
theorem exists_lowerWords (pc : UInt64) (h : ∀ word ∈ words, handled word = true) :
    ∃ body, lowerWords pc words = .ok body := by
  induction words generalizing pc with
  | nil => exact ⟨[], rfl⟩
  | cons word rest ih =>
    obtain ⟨hword, hrest⟩ := List.forall_mem_cons.1 h
    obtain ⟨body, hbody⟩ := ih (pc + 4) hrest
    rw [handled, ← isSome_lowerWord? pc, Option.isSome_iff_exists] at hword
    obtain ⟨code, hcode⟩ := hword
    refine ⟨code ++ body, ?_⟩
    rw [lowerWords, hcode]
    simp only [hbody]
    rfl

/-- The first word that cannot be executed is reported. -/
theorem lowerWords_eq_error {i : Nat} (pc : UInt64) (hword : words[i]? = some word)
    (hnone : handled word = false)
    (hbefore : ∀ j < i, ∀ word', words[j]? = some word' → handled word' = true) :
    lowerWords pc words = .error (.unsupported (pc + 4 * i.toUInt64) word) := by
  induction words generalizing pc i with
  | nil => cases hword
  | cons first rest ih =>
    rw [lowerWords]
    cases i with
    | zero =>
      cases hword
      rw [handled, ← isSome_lowerWord? pc, Option.isSome_eq_false_iff, Option.isNone_iff_eq_none]
        at hnone
      rw [hnone, address_zero]
    | succ i =>
      have hfirst : handled first = true := hbefore 0 (by omega) first rfl
      rw [handled, ← isSome_lowerWord? pc, Option.isSome_iff_exists] at hfirst
      obtain ⟨code, hcode⟩ := hfirst
      have hrest := ih (pc + 4) hword fun j hj => hbefore (j + 1) (by omega)
      rw [hcode, hrest, address_succ]
      rfl

/-- The labels of some code are resolved in an object. -/
structure Resolved (code : Code) (object : Object Helper) : Prop where
  /-- The object is made from the code. -/
  assembled : Line.assemble code = .ok object
  /-- Each label has one position. -/
  once : ∀ label ∈ Line.labels code, (positions code).count label = 1
  /-- Jumps go to the positions of their labels, wherever helpers are. -/
  placed : ∀ address, Line.Placed code address (object.link address)

theorem resolved_of_closed {object : Object Helper} (hclosed : Line.Closed code)
    (h : Line.assemble code = .ok object) : Resolved code object := by
  refine ⟨h, fun label hlabel => ?_, Line.placed_of_assemble h⟩
  obtain ⟨line, hline, hmem⟩ := List.mem_filterMap.1 (List.mem_eraseDups.1 hlabel)
  refine List.count_eq_one_of_mem hclosed.nodup ?_
  cases line with
  | jump label' | jumpIf cond label' =>
    cases hmem
    exact hclosed.bound _ (List.mem_filterMap.2 ⟨_, hline, rfl⟩)
  | bind label' =>
    cases hmem
    exact List.mem_filterMap.2 ⟨_, hline, rfl⟩
  | instr | address => cases hmem

theorem exists_unsupported_of_lowerWords {error : CompileError}
    (h : lowerWords pc words = .error error) : ∃ pc' word, error = .unsupported pc' word := by
  induction words generalizing pc with
  | nil => cases h
  | cons word rest ih =>
    rw [lowerWords] at h
    split at h
    · cases h
      exact ⟨pc, word, rfl⟩
    · cases hrest : lowerWords (pc + 4) rest with
      | error error' =>
        rw [hrest] at h
        cases h
        exact ih hrest
      | ok body =>
        rw [hrest] at h
        cases h

/-- Words without an operation are the only obstacle to compiling some words. -/
theorem unsupported_or_compiled (start : UInt64) (hne : words ≠ []) :
    (∃ pc word, compile start words = .error (.unsupported pc word)) ∨
      ∃ block, compile start words = .ok block := by
  cases hbody : lowerWords start (upToEnd words) with
  | error error =>
    obtain ⟨pc, word, rfl⟩ := exists_unsupported_of_lowerWords hbody
    refine .inl ⟨pc, word, ?_⟩
    rw [compile_eq, if_neg (by simpa using hne), hbody]
    rfl
  | ok body =>
    obtain ⟨object, -, hcompile⟩ := exists_compile_eq hne hbody
    exact .inr ⟨_, hcompile⟩

theorem getElem?_upToEnd {i : Nat} (h : i ≤ lastIndex words) : (upToEnd words)[i]? = words[i]? := by
  rw [upToEnd_eq_take, List.getElem?_take_of_lt (by omega)]

theorem compile_eq_unsupported {i : Nat} (start : UInt64) (hi : i ≤ lastIndex words)
    (hword : words[i]? = some word) (hnone : handled word = false)
    (hbefore : ∀ j < i, ∀ word', words[j]? = some word' → handled word' = true) :
    compile start words = .error (.unsupported (start + 4 * i.toUInt64) word) := by
  have hne : words ≠ [] := List.ne_nil_of_mem (List.mem_of_getElem? hword)
  have hlower : lowerWords start (upToEnd words) =
      .error (.unsupported (start + 4 * i.toUInt64) word) := by
    refine lowerWords_eq_error start ((getElem?_upToEnd hi).trans hword) hnone ?_
    intro j hj word' hword'
    exact hbefore j hj word' ((getElem?_upToEnd (by omega)).symm.trans hword')
  rw [compile_eq, if_neg (by simpa using hne), hlower]
  rfl

theorem exists_compile_of_handled (start : UInt64) (hne : words ≠ [])
    (h : ∀ i ≤ lastIndex words, ∀ word, words[i]? = some word → handled word = true) :
    ∃ object, compile start words = .ok ⟨start, upToEnd words, object⟩ := by
  have hall : ∀ word ∈ upToEnd words, handled word = true := by
    intro word hword
    obtain ⟨i, hi⟩ := List.mem_iff_getElem?.1 hword
    have hlt : i < (upToEnd words).length := (List.getElem?_eq_some_iff.1 hi).1
    rw [upToEnd_eq_take, List.length_take] at hlt
    have hle : i ≤ lastIndex words := by omega
    exact h i hle word ((getElem?_upToEnd hle).symm.trans hi)
  obtain ⟨body, hbody⟩ := exists_lowerWords start hall
  obtain ⟨object, -, hcompile⟩ := exists_compile_eq hne hbody
  exact ⟨object, hcompile⟩

/-- **Compilation accepts exactly what can be executed.**  An empty list of words is rejected as
such.  Of any other, the words up to the first that ends a block are compiled, unless one of them
has no operation: the first such word is then reported with its address.  Emitting the code never
fails, and all its labels are resolved. -/
theorem compile_accepts (start : UInt64) (words : List UInt32) :
    (compile start words = .error (.emptyBlock start) ↔ words = []) ∧
      (∀ i ≤ lastIndex words, ∀ word, words[i]? = some word → handled word = false →
        (∀ j < i, ∀ word', words[j]? = some word' → handled word' = true) →
        compile start words = .error (.unsupported (start + 4 * i.toUInt64) word)) ∧
      (words ≠ [] → (∀ i ≤ lastIndex words, ∀ word, words[i]? = some word → handled word = true) →
        ∃ block, compile start words = .ok block ∧ block.start = start ∧
          block.words = words.take (lastIndex words + 1) ∧ block.size = lastIndex words + 1) ∧
      (∀ error, compile start words ≠ .error (.emit error)) ∧
      ∀ block, compile start words = .ok block → ∃ body,
        lowerWords start block.words = .ok body ∧
          Resolved (enclose start block.words body) block.object := by
  refine ⟨⟨fun hempty => ?_, ?_⟩, ?_, fun hne hhandled => ?_, fun error hemit => ?_,
    fun block hblock => ?_⟩
  · by_contra hne
    rcases unsupported_or_compiled start hne with ⟨pc, word, h⟩ | ⟨block, h⟩ <;>
      cases hempty.symm.trans h
  · rintro rfl
    rfl
  · exact fun i hi word => compile_eq_unsupported start hi
  · obtain ⟨object, hcompile⟩ := exists_compile_of_handled start hne hhandled
    have hsize : (words.take (lastIndex words + 1)).length = lastIndex words + 1 := by
      have hlt := lastIndex_lt hne
      rw [List.length_take]
      omega
    rw [upToEnd_eq_take] at hcompile
    exact ⟨_, hcompile, rfl, rfl, hsize⟩
  · by_cases hne : words = []
    · subst hne
      cases hemit
    · rcases unsupported_or_compiled start hne with ⟨pc, word, h⟩ | ⟨block, h⟩ <;>
        cases hemit.symm.trans h
  · obtain ⟨-, body, object, hbody, hobject, rfl⟩ := exists_body_of_compile hblock
    exact ⟨body, hbody, resolved_of_closed (closed_enclose hbody) hobject⟩

end Block

end AlphaMachine
