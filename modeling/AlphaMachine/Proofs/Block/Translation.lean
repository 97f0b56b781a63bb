import AlphaMachine.Block.Compile
import AlphaMachine.Proofs.Isa.Dispatch

/-!
# What the translator accepts

The table of the translator and that of the operations are registered on their own.  They have the
same keys, and what stands under a key of one follows from what stands there in the other
(`Translation.get?_table`).  So the translator deals with exactly the words that can be executed,
and

* `Block.lowerWord?_eq` : the code of a word is that of its operation, or a call of the interpreter;
* `Block.leavesAt_eq` : the code leaves the block exactly if the word ends a block;
* `Block.compile_eq` : compilation first takes the words up to the end of the block, then the code
  of each of them, and then puts the frame of a block around it.
-/

namespace AlphaMachine

/-! ### The two tables -/

namespace Translation

/-- The translation of the words that have an operation. -/
def ofOperation : Operation → Translation
  | .operate (.moveIf _) => .moveIf
  | .branch (.onInt _) => .onInt
  | .branch (.onFloat _) => .onFloat
  | .operate .zap | .operate .zapNot | .operate (.byteField ..) | .operate .countOnes
  | .operate .countLeadingZeros | .operate .countTrailingZeros | .operate (.moveFromFloat .single)
  | .float (.moveFromInt .single) | .float (.compare _) | .float .roundSingle | .float .toQuad
  | .float (.ofQuad _) | .float .longToQuad | .float .quadToLong | .float .writeControl
  | .float .readControl | .float (.moveIf _)
  | .memory (.loadLocked _) | .memory (.storeConditional _) | .memory (.floatLoad .single)
  | .memory (.floatStore .single) | .memory .readCycles | .memory (.exchangeFlag _)
  | .memory .privileged | .pal _ => .interpret
  | op => .native op

theorem registrations_perm :
    (registrations.map fun r => (r.key, r.value)).Perm
      (Operation.registrations.map fun r => (r.key, ofOperation r.value)) := by
  decide

theorem table_holds : table.Holds registrations :=
  DispatchTable.holds_of_build (by decide +kernel)

/-- **The two tables agree**: they have the same keys, and each translation is that of the
operation under its key. -/
theorem get?_table (key : Key) : table.get? key = (Operation.table.get? key).map ofOperation := by
  have hmap := DispatchTable.Holds.get?_map (f := ofOperation) Operation.table_holds table_holds
  exact hmap registrations_perm key

/-- **The translator deals with exactly the instructions that have an operation.** -/
theorem ofInstruction?_eq (i : Instruction) :
    ofInstruction? i = (Operation.ofInstruction? i).map ofOperation := by
  rw [ofInstruction?, Operation.ofInstruction?, DispatchTable.lookup, DispatchTable.lookup]
  cases i.key? with
  | none => rfl
  | some key =>
    rw [Option.bind_some, Option.bind_some]
    exact get?_table key

/-- The condition that the translator reads from the word is the one that is registered with the
operation. -/
def readsCondition (e : Key × Operation) : Bool :=
  match e.2 with
  | .operate (.moveIf condition) =>
    e.1.opcode == .intL && e.1.function.all (condition == .ofFunction ·)
  | .branch (.onInt condition) => condition == .ofOpcode e.1.opcode
  | .branch (.onFloat condition) => condition == .ofOpcode e.1.opcode
  | _ => true

theorem readsCondition_of_ofInstruction? {i : Instruction} {op : Operation}
    (h : Operation.ofInstruction? i = some op) :
    ∃ key, i.key? = some key ∧ readsCondition (key, op) = true :=
  Operation.entry_of_ofInstruction? (by decide) h

end Translation

namespace Translation

open Block

variable {word : UInt32} {op : Operation}

/-- **The code of a word is that of its operation, if it has any of its own.** -/
theorem code?_ofOperation (h : Operation.ofInstruction? (.decode word) = some op) (pc : UInt64) :
    (ofOperation op).code? pc word =
      some ((op.lower? pc (.decode word)).getD (Block.interpret pc word (endsAt word))) := by
  obtain ⟨key, hkey, hreads⟩ := readsCondition_of_ofInstruction? h
  have hopcode := Instruction.opcode_of_key? hkey
  have hfits := Operation.fits_decode h
  have hlt := @Instruction.function_lt_of_decode word
  unfold code? endsAt
  generalize Instruction.decode word = i at hkey hopcode hfits hlt ⊢
  cases hfits with
  | operate op opcode ra rb function rc =>
    cases op with
    | moveIf condition =>
      simp only [readsCondition, Bool.and_eq_true, beq_iff_eq] at hreads
      have hopc : opcode = .intL := hopcode.symm.trans hreads.1
      subst hopc
      -- Integer functions are as wide as the slots, so the slot is the function itself.
      have hslot : key.function = some function := by
        have hkey : (Opcode.slot? .intL function).map (fun slot => ⟨.intL, some slot⟩) = some key :=
          hkey
        obtain ⟨slot, hslot, rfl⟩ := Option.map_eq_some_iff.1 hkey
        exact (Opcode.slot?_eq_some_iff.1 hslot).2.symm.trans (Opcode.masked_of_lt rfl (hlt rfl))
      have hcondition : condition = .ofFunction function := by
        simpa [hslot] using hreads.2
      subst hcondition
      simp only [ofOperation, Operation.lower?, OperateOp.lower?]
      split <;> rfl
    | moveFromFloat precision => cases precision <;> rfl
    | _ => rfl
  | float op opcode fa fb function fc =>
    cases op with
    | moveFromInt precision => cases precision <;> rfl
    | _ => rfl
  | memory op opcode ra rb displacement =>
    cases op with
    | floatLoad precision | floatStore precision => cases precision <;> rfl
    | _ => rfl
  | branch op opcode ra displacement =>
    cases op with
    | link => rfl
    | onInt condition | onFloat condition =>
      have hcondition := eq_of_beq hreads
      rw [hopcode] at hcondition
      subst hcondition
      rfl
  | pal op function => rfl

/-- **The translator stops exactly behind words that end a block.** -/
theorem leaves_ofOperation (h : Operation.ofInstruction? (.decode word) = some op) :
    (ofOperation op).leaves word = endsAt word := by
  have hleaves : op.leavesLine = endsAt word := Operation.leavesLine_eq h
  cases op with
  | operate op =>
    cases op with
    | moveFromFloat precision => cases precision <;> first | exact hleaves | rfl
    | _ => first | exact hleaves | rfl
  | float op =>
    cases op with
    | moveFromInt precision => cases precision <;> first | exact hleaves | rfl
    | _ => first | exact hleaves | rfl
  | memory op =>
    cases op with
    | floatLoad precision | floatStore precision => cases precision <;> first | exact hleaves | rfl
    | _ => first | exact hleaves | rfl
  | branch op => cases op <;> exact hleaves
  | pal op => rfl

end Translation

/-! ### Addresses -/

namespace Block

variable {word : UInt32} {pc : UInt64} {code : Code}

theorem address_zero (pc : UInt64) : pc + 4 * (0 : Nat).toUInt64 = pc := UInt64.add_zero pc

/-- The addresses of instructions in a row. -/
theorem address_succ (pc : UInt64) (n : Nat) :
    pc + 4 * (n + 1).toUInt64 = pc + 4 + 4 * n.toUInt64 := by
  have hnat : (n + 1).toUInt64 = n.toUInt64 + 1 := UInt64.ofNat_add n 1
  rw [hnat, UInt64.mul_add, UInt64.add_assoc, UInt64.add_comm 4]
  rfl

theorem address_next (pc : UInt64) (n : Nat) :
    pc + 4 * n.toUInt64 + 4 = pc + 4 * (n + 1).toUInt64 := by
  rw [address_succ, UInt64.add_assoc, UInt64.add_comm (4 * _), ← UInt64.add_assoc]

/-! ### Words -/

theorem lowerWord?_eq (pc : UInt64) (word : UInt32) :
    lowerWord? pc word = (Operation.ofInstruction? (.decode word)).map fun op =>
      (op.lower? pc (.decode word)).getD (interpret pc word (endsAt word)) := by
  rw [lowerWord?, Translation.ofInstruction?_eq]
  cases hop : Operation.ofInstruction? (.decode word) with
  | none => rfl
  | some op => exact Translation.code?_ofOperation hop pc

/-- Words with an operation have code, and no others. -/
theorem isSome_lowerWord? (pc : UInt64) (word : UInt32) :
    (lowerWord? pc word).isSome = (Operation.ofInstruction? (.decode word)).isSome := by
  rw [lowerWord?_eq, Option.isSome_map]

theorem leavesAt_eq (h : lowerWord? pc word = some code) : leavesAt word = endsAt word := by
  have hsome := isSome_lowerWord? pc word
  rw [h, Option.isSome_some, eq_comm, Option.isSome_iff_exists] at hsome
  obtain ⟨op, hop⟩ := hsome
  rw [leavesAt, Translation.ofInstruction?_eq, hop]
  exact Translation.leaves_ofOperation hop

/-! ### Blocks -/

/-- The words up to the first that ends a block. -/
def upToEnd : List UInt32 → List UInt32
  | [] => []
  | word :: rest => word :: if endsAt word then [] else upToEnd rest

/-- The code of consecutive instructions from `pc`. -/
def lowerWords : UInt64 → List UInt32 → Except CompileError Code
  | _, [] => .ok []
  | pc, word :: rest =>
    match lowerWord? pc word with
    | none => .error (.unsupported pc word)
    | some code => (lowerWords (pc + 4) rest).map (code ++ ·)

/-- Leave for the instruction behind the block, unless the last instruction leaves by itself. -/
def fallThrough (start : UInt64) (words : List UInt32) : Code :=
  if words.getLast?.any endsAt then [] else exitTo (start + 4 * words.length.toUInt64)

/-- The code of a block whose instructions have the code `body`. -/
def enclose (start : UInt64) (words : List UInt32) (body : Code) : Code :=
  prologue ++ body ++ fallThrough start words ++ epilogue ++ trapExits body

/-- Only the last word of a block may end it. -/
theorem endsAt_of_mem_dropLast {words : List UInt32} (h : word ∈ (upToEnd words).dropLast) :
    endsAt word = false := by
  induction words with
  | nil => cases h
  | cons first rest ih =>
    unfold upToEnd at h
    cases hend : endsAt first with
    | true =>
      rw [hend] at h
      cases h
    | false =>
      rw [hend, if_neg (by simp)] at h
      cases hrest : upToEnd rest with
      | nil =>
        rw [hrest] at h
        cases h
      | cons second others =>
        rw [hrest, List.dropLast_cons_cons] at h
        rcases List.mem_cons.1 h with rfl | hmem
        · exact hend
        · exact ih (hrest ▸ hmem)

/-- **Translation takes the words up to the end of the block.** -/
theorem translate_eq (pc : UInt64) (words : List UInt32) :
    translate pc words = (lowerWords pc (upToEnd words)).map fun code =>
      ⟨upToEnd words, code, (upToEnd words).getLast?.any endsAt⟩ := by
  induction words generalizing pc with
  | nil => rfl
  | cons word rest ih =>
    rw [translate, upToEnd, lowerWords]
    cases hcode : lowerWord? pc word with
    | none => rfl
    | some code =>
      simp only [leavesAt_eq hcode]
      cases hends : endsAt word with
      | true => simp [lowerWords, Except.map, hends]
      | false =>
        simp only [Bool.false_eq_true, if_false, ih]
        cases hbody : lowerWords (pc + 4) (upToEnd rest) with
        | error err => rfl
        | ok body =>
          -- Behind a word that does not end it, the last word of the block is that of the rest.
          have hlast : (word :: upToEnd rest).getLast?.any endsAt =
              (upToEnd rest).getLast?.any endsAt := by
            cases hrest : upToEnd rest with
            | nil => simpa using hends
            | cons next rest' => simp [List.getLast?_cons_cons]
          rw [hlast]
          rfl

/-- **Compilation in two steps**: first the words of the block, then their code. -/
theorem compile_eq (start : UInt64) (words : List UInt32) :
    compile start words =
      if words.isEmpty then .error (.emptyBlock start)
      else (lowerWords start (upToEnd words)).bind fun body =>
        ((Host.Line.assemble (enclose start (upToEnd words) body)).mapError .emit).map fun object =>
          ⟨start, upToEnd words, object⟩ := by
  unfold compile
  split
  · rfl
  · rw [translate_eq]
    cases lowerWords start (upToEnd words) with
    | error err => rfl
    | ok body =>
      have hcode : prologue ++ body ++
          Body.onward ⟨upToEnd words, body, (upToEnd words).getLast?.any endsAt⟩ start ++
            epilogue ++ trapExits body = enclose start (upToEnd words) body := rfl
      simp only [Except.map, Except.bind, bind, pure, Except.pure, hcode]

/-- What a compiled block is made of. -/
theorem exists_body_of_compile {start : UInt64} {words : List UInt32} {block : Block}
    (h : compile start words = .ok block) :
    words ≠ [] ∧ ∃ body object, lowerWords start (upToEnd words) = .ok body ∧
      Host.Line.assemble (enclose start (upToEnd words) body) = .ok object ∧
      block = ⟨start, upToEnd words, object⟩ := by
  rw [compile_eq] at h
  split at h
  · cases h
  · next hne =>
    refine ⟨by simpa using hne, ?_⟩
    cases hbody : lowerWords start (upToEnd words) with
    | error err =>
      rw [hbody] at h
      cases h
    | ok body =>
      cases hobject : Host.Line.assemble (enclose start (upToEnd words) body) with
      | error err =>
        simp only [hbody, Except.bind, hobject] at h
        cases h
      | ok object =>
        simp only [hbody, Except.bind, hobject] at h
        cases h
        exact ⟨body, object, rfl, hobject, rfl⟩

end Block

end AlphaMachine
