import AlphaMachine.Proofs.Engine.Events

/-!
# What an invalidation forgets

An invalidation is asked for the blocks that contain an address.  A block contains the bytes of
its instructions (`Block.Occupies`), and it is found by comparing the address with the two ends of
its range (`Block.covers`).  The two agree except for one kind of block: behind the last byte of the
address space the upper end is zero, and a block that reaches there is never found
(`Block.covers_iff`).

`Engine.compiled_invalidate_iff` says for every history of an engine which compiled blocks are left
after an invalidation: those that do not contain the address, and those that reach the top.
-/

namespace AlphaMachine

namespace Block

/-- One of the bytes of the block's instructions is at the address. -/
def Occupies (b : Block) (address : UInt64) : Prop :=
  ∃ k < 4 * b.size, address = b.start + UInt64.ofNat k

/-- The last byte of the block is the last of the address space. -/
def ReachesTop (b : Block) : Prop := b.start.toNat + 4 * b.size = 2 ^ 64

theorem toNat_stop (b : Block) : b.stop.toNat = (b.start.toNat + 4 * b.size) % 2 ^ 64 := by
  have hsize : b.size.toUInt64.toNat = b.size % 2 ^ 64 := UInt64.toNat_ofNat'
  have hfour : (4 : UInt64).toNat = 4 := rfl
  rw [stop, UInt64.toNat_add, UInt64.toNat_mul, hsize, hfour]
  omega

theorem occupies_iff {b : Block} (h : b.start.toNat + 4 * b.size ≤ 2 ^ 64) {address : UInt64} :
    b.Occupies address ↔
      b.start.toNat ≤ address.toNat ∧ address.toNat < b.start.toNat + 4 * b.size := by
  have hlt := address.toNat_lt
  constructor
  · rintro ⟨k, hk, rfl⟩
    have hadd : (b.start + UInt64.ofNat k).toNat = b.start.toNat + k := by
      rw [UInt64.toNat_add, UInt64.toNat_ofNat']
      omega
    omega
  · rintro ⟨hle, hub⟩
    refine ⟨address.toNat - b.start.toNat, by omega, ?_⟩
    rw [← UInt64.toNat_inj, UInt64.toNat_add, UInt64.toNat_ofNat']
    omega

/-- The comparison finds the blocks that contain the address and do not reach the top. -/
theorem covers_iff {b : Block} (h : b.start.toNat + 4 * b.size ≤ 2 ^ 64) {address : UInt64} :
    b.covers address = true ↔ b.Occupies address ∧ ¬ b.ReachesTop := by
  have hstop := b.toNat_stop
  have hlt := address.toNat_lt
  rw [occupies_iff h]
  simp only [covers, ReachesTop, Bool.and_eq_true, decide_eq_true_eq, UInt64.le_iff_toNat_le,
    UInt64.lt_iff_toNat_lt]
  rcases Nat.lt_or_eq_of_le h with hbelow | htop
  · rw [Nat.mod_eq_of_lt hbelow] at hstop
    omega
  · have hzero : b.stop.toNat = 0 := by rw [hstop, htop, Nat.mod_self]
    omega

end Block

namespace Engine

/-- The range of a block lies within the address space. -/
def InAddressSpace : Control.BlockProperty :=
  fun start words => start.toNat + 4 * words.length ≤ 2 ^ 64

theorem fetchedHave_inAddressSpace (mem : Memory) (limit : Nat) :
    Control.FetchedHave InAddressSpace mem limit :=
  fun _ _ hne hw => (Control.fetched_of_fetchBlock hw).range_le hne

/-- **An invalidation leaves the compiled blocks that do not contain the address, and those that
reach the top of the address space**; it leaves no compilation under way, and an invalidation of
everything leaves nothing. -/
theorem compiled_invalidate_iff (mem : Memory) (entry : UInt64) (settings : Settings)
    (events : List Event) (address : UInt64) :
    let e := (start mem entry settings).after events
    (∀ (pc : UInt64) (block : Block), (e.invalidate address).control.blocks[pc]? =
        some (.compiled block) ↔
      e.control.blocks[pc]? = some (.compiled block) ∧
        (block.Occupies address → block.ReachesTop)) ∧
    (∀ pc : UInt64, (e.invalidate address).control.blocks[pc]? ≠ some .compiling) ∧
    e.invalidateAll.control.blocks = ∅ := by
  intro e
  have hholds : Control.Holds InAddressSpace e.control :=
    holds_after fetchedHave_inAddressSpace mem entry settings events
  refine ⟨fun pc block => ?_, fun pc => ?_, rfl⟩
  · change (e.control.invalidate address).blocks[pc]? = _ ↔ _
    rw [Control.getElem?_invalidate, Option.filter_eq_some_iff]
    refine and_congr_right fun hb => ?_
    obtain ⟨hstart, hrange⟩ := hholds.compiled hb
    rw [← hstart] at hrange
    have hcovers : block.covers address = true ↔ _ := Block.covers_iff hrange
    simp only [Entry.survives, Bool.not_eq_true', ← Bool.not_eq_true, hcovers]
    tauto
  · intro hc
    have hs := (Control.getElem?_invalidate e.control address pc).symm.trans hc
    exact absurd (Option.filter_eq_some_iff.1 hs).2 (by simp [Entry.survives])

end Engine

end AlphaMachine
