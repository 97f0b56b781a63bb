import AlphaMachine.Engine.Control
import AlphaMachine.Proofs.Block.Translation
import Mathlib.Algebra.Group.Nat.Defs
import Mathlib.Tactic.Common

/-!
# Fetching blocks

Which addresses can be fetched from depends on the extent of the memory alone
(`Control.exists_fetch_eq_ok`).  The words of a block lie one behind the
other (`Control.Fetched`), only the last of them ends the block (`Control.upToEnd_of_fetchBlock`),
and their range does not reach beyond the last address (`Control.Fetched.range_le`): a memory has
fewer bytes than there are addresses, so no fetch can run around.
-/

namespace AlphaMachine

namespace Control

variable {mem mem' : Memory} {pc : UInt64}

/-! ### Single words -/

theorem fetch_eq_ok_iff {word : UInt32} :
    fetch mem pc = .ok word ↔ Memory.isAligned pc .long = true ∧ mem.maps pc 4 = true ∧
      (UInt64.ofNat (Bytes.littleEndian (Bytes.slice mem.bytes (mem.index pc) 4))).toUInt32 =
        word := by
  simp only [fetch, Memory.load, AccessSize.bytes]
  by_cases ha : Memory.isAligned pc .long = true
  · by_cases hm : mem.maps pc 4 = true
    · simp [ha, hm, Except.map]
    · simp [ha, hm, Except.map]
  · simp [ha, Except.map]

theorem aligned_of_fetch {word : UInt32} (h : fetch mem pc = .ok word) : pc.toNat % 4 = 0 :=
  of_decide_eq_true (fetch_eq_ok_iff.1 h).1

theorem mapped_of_fetch {word : UInt32} (h : fetch mem pc = .ok word) :
    mem.base.toNat ≤ pc.toNat ∧ pc.toNat - mem.base.toNat + 4 ≤ mem.size := by
  simpa [Memory.maps, UInt64.le_iff_toNat_le] using (fetch_eq_ok_iff.1 h).2.1

theorem maps_congr (hb : mem'.base = mem.base) (hs : mem'.size = mem.size) (n : Nat) :
    mem'.maps pc n = mem.maps pc n := by
  simp only [Memory.maps, hb, hs]

/-- Memories of one extent can be fetched from at the same addresses. -/
theorem exists_fetch_eq_ok (hb : mem'.base = mem.base) (hs : mem'.size = mem.size)
    {word : UInt32} (h : fetch mem pc = .ok word) : ∃ word', fetch mem' pc = .ok word' := by
  obtain ⟨ha, hm, -⟩ := fetch_eq_ok_iff.1 h
  exact ⟨_, fetch_eq_ok_iff.2 ⟨ha, (maps_congr hb hs 4).trans hm, rfl⟩⟩

/-! ### Words in a row -/

/-- The words from `pc` on are those of the memory. -/
def Fetched (mem : Memory) : UInt64 → List UInt32 → Prop
  | _, [] => True
  | pc, word :: rest => fetch mem pc = .ok word ∧ Fetched mem (pc + 4) rest

theorem fetched_of_fetchBlock {n : Nat} {words : List UInt32}
    (h : fetchBlock mem n pc = .ok words) : Fetched mem pc words := by
  induction n generalizing pc words with
  | zero =>
    cases h
    trivial
  | succ n ih =>
    simp only [fetchBlock] at h
    cases hw : fetch mem pc with
    | error fault => rw [hw] at h; cases h
    | ok word =>
      rw [hw] at h
      cases h
      refine ⟨hw, ?_⟩
      split
      · trivial
      · cases hr : fetchBlock mem n (pc + 4) with
        | error fault => trivial
        | ok rest => exact ih hr

/-- Only the last word of a fetched block ends it. -/
theorem upToEnd_of_fetchBlock {n : Nat} {words : List UInt32}
    (h : fetchBlock mem n pc = .ok words) : Block.upToEnd words = words := by
  induction n generalizing pc words with
  | zero =>
    cases h
    rfl
  | succ n ih =>
    simp only [fetchBlock] at h
    cases hw : fetch mem pc with
    | error fault => rw [hw] at h; cases h
    | ok word =>
      rw [hw] at h
      cases h
      simp only [Block.upToEnd]
      split
      · rfl
      · cases hr : fetchBlock mem n (pc + 4) with
        | error fault => rfl
        | ok rest => exact congrArg _ (ih hr)

/-- **A block does not reach beyond the last address.** -/
theorem Fetched.range_le {words : List UInt32} (h : Fetched mem pc words) (hw : words ≠ []) :
    pc.toNat + 4 * words.length ≤ 2 ^ 64 := by
  induction words generalizing pc with
  | nil => exact absurd rfl hw
  | cons word rest ih =>
    obtain ⟨hpc, hrest⟩ := h
    have halign := aligned_of_fetch hpc
    have hmap := mapped_of_fetch hpc
    have hlt := pc.toNat_lt
    cases rest with
    | nil =>
      simp only [List.length_singleton]
      omega
    | cons word' rest' =>
      have hsize : mem.bytes.size < 2 ^ 64 := mem.size_lt
      have hmap' := mapped_of_fetch hrest.1
      have hadd : (pc + 4).toNat = (pc.toNat + 4) % 2 ^ 64 := by simp [UInt64.toNat_add]
      have hr := ih hrest (by simp)
      simp only [List.length_cons] at hr ⊢
      -- Were the next word behind the last address, both ends of the address space were mapped.
      have hnext : pc.toNat + 4 < 2 ^ 64 := by
        simp only [Memory.size] at hmap
        omega
      omega

end Control

end AlphaMachine
